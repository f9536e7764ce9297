import UnixTasks.Lib.Run
import UnixTasks.Udp.Child

/-!
# server.c: the shells of a client

The child of a client runs its commands in a bash behind a pty.  Each "shell" starts a further bash and lets `*fd` name
its pty; the ptys of the earlier ones stay open and nobody reads them.  `bash_work` is set by "shell", cleared by the
handler of `SIGCHLD` and cleared by `read_bash` when `poll` reports anything but `POLLIN`.

* (`State.step`) the steps of the child and of its bashes;
* (`Moves`, `moves_of_step`) what one step does.

A pty is named by the position of its bash in the list of those that have been started.  What the commands do to a bash
is not modelled: it may write, close its pty and exit whenever it wants.  The exit of a bash and its signal are one
step.

A "shell" is one step here, a signal does not interrupt `poll`, and a pty is closed when its bash has closed it,
although `shell()` keeps the slave side open in the child too (`resfd`).  `BashWork` puts this right where it matters.
-/

namespace UnixTasks.Udp.Shell

open CChar CString ActionSystem

/-- A bash that has been started, and the master side of its pty. -/
structure Bash where
  running : Bool
  /-- The bash has closed the slave side of the pty. -/
  closed : Bool
  /-- The output that has been read from the pty, and the one that is still in it. -/
  taken : List CChar
  unread : List CChar
  deriving DecidableEq, Repr

/-- What a bash has written since its start. -/
def Bash.written (b : Bash) : List CChar := b.taken ++ b.unread

/-- A bash that has just been started. -/
def Bash.start : Bash := ⟨true, false, [], []⟩

/-- The flags `POLLIN` and `POLLHUP` of `revents`. -/
structure Revents where
  pollin : Bool
  pollhup : Bool
  deriving DecidableEq, Repr

/-- What `poll` reports; without any flag it returns 0. -/
def Bash.revents (b : Bash) : Revents := ⟨!b.unread.isEmpty, b.closed⟩

/-- A call of `send_info` in `read_bash`: the pty that was read, the result of `read` and the buffer. -/
structure Sent where
  fd : Nat
  ret : Nat
  readbuf : List CChar
  deriving DecidableEq, Repr

/-- Where the child is: it waits for a command, it is in `read_bash` (at the `poll`, at the `read`, at the `send_info`),
`read_bash` has returned, it has left `child_handle`. -/
inductive Place where
  | idle
  | poll
  | read
  | sendInfo (ret : Nat) (readbuf : List CChar)
  | returned (ret : Int)
  | exited
  deriving DecidableEq, Repr

structure State where
  bashWork : Bool
  /-- `*fd`: `none` before the first shell, and for -1. -/
  fd : Option Nat
  bashes : List Bash
  place : Place
  /-- What `read_bash` has passed to `send_info`, in order. -/
  sent : List Sent
  deriving DecidableEq, Repr

def State.start : State := ⟨false, none, [], .idle, []⟩

/-- The next step of the child, or one of a bash; `ok` says whether the system call that it makes succeeds. -/
inductive Action where
  | command (childBuf : List CChar) (ok : Bool)
  | poll
  /-- The number of bytes that are read; `none` for an error. -/
  | read (ret : Option Nat)
  | sendInfo (ok : Bool)
  | ret
  | write (i : Nat) (data : List CChar)
  | close (i : Nat)
  | exit (i : Nat)
  deriving DecidableEq, Repr

/-- The bash behind `*fd`. -/
def State.current (s : State) : Option Bash := s.fd.bind fun i => s.bashes[i]?

/-- The state after a step of the bash `i`. -/
def State.setBash (s : State) (i : Nat) (b : Bash) : State := { s with bashes := s.bashes.set i b }

/-- `shell()` and what `execution` does with its result. -/
def State.shell (s : State) (ok : Bool) : State :=
  if ok then { s with bashWork := true, fd := some s.bashes.length, bashes := s.bashes ++ [.start] }
  else { s with fd := none, place := .exited }

/-- `execution(child_buf, sk, name, fd)`, up to its return or its call of `read_bash`. -/
def State.execution (s : State) (ok : Bool) (childBuf : List CChar) : State :=
  match cmpComm s.bashWork childBuf with
  | .toBash => { s with place := if ok then .poll else .exited }
  | .quit => { s with place := .exited }
  | .shell => s.shell ok
  | .unrecognized => { s with place := if ok then s.place else .exited }

/-- `read` of `n` bytes from a pty. -/
def Bash.take (n : Nat) (b : Bash) : Bash := { b with taken := b.taken ++ b.unread.take n, unread := b.unread.drop n }

/-- One system call of `read_bash`, on the pty `fd` of the bash `b`. -/
def State.readBash (s : State) (fd : Nat) (b : Bash) : Action → Option State
  | .poll =>
    if s.place = .poll then
      if b.revents = ⟨false, false⟩ then some { s with place := .returned 0 }
      else if b.revents = ⟨true, false⟩ then some { s with place := .read }
      else some { s with bashWork := false, place := .returned 1 }
    else none
  | .read none => if s.place = .read then some { s with place := .returned (-1) } else none
  | .read (some n) =>
    if s.place = .read ∧ 0 < n ∧ n ≤ bufSz ∧ n ≤ b.unread.length then
      some { s.setBash fd (b.take n) with place := .sendInfo n (padded bufSz (b.unread.take n)) }
    else none
  | .sendInfo ok =>
    match s.place with
    | .sendInfo ret readbuf =>
      some { s with sent := s.sent ++ [⟨fd, ret, readbuf⟩], place := if ok then .poll else .returned (-1) }
    | _ => none
  | _ => none

/-- What a bash does, when it can do it. -/
def Bash.act (b : Bash) : Action → Option Bash
  | .write _ data => if b.closed then none else some { b with unread := b.unread ++ data }
  | .close _ => some { b with closed := true }
  | .exit _ => if b.running then some { b with running := false } else none
  | _ => none

def State.step (s : State) (a : Action) : Option State :=
  match a with
  | .command childBuf ok => if s.place = .idle then some (s.execution ok childBuf) else none
  | .ret =>
    match s.place with
    | .returned ret => some { s with place := if ret < 0 then .exited else .idle }
    | _ => none
  | .write i _ | .close i => (s.bashes[i]?.bind (·.act a)).map (s.setBash i)
  -- `off_bash`, while there is a child to receive the signal
  | .exit i =>
    if s.place = .exited then none
    else (s.bashes[i]?.bind (·.act a)).map fun b => { s.setBash i b with bashWork := false }
  | _ => s.fd.bind fun fd => s.bashes[fd]?.bind fun b => s.readBash fd b a

/-! ### What a step does -/

section Steps

variable {s t : State} {a : Action}

/-- One step, with what it needs. -/
inductive Moves (s : State) : Action → State → Prop where
  | command {childBuf ok} (hidle : s.place = .idle) : Moves s (.command childBuf ok) (s.execution ok childBuf)
  | nothing {b} (hb : s.current = some b) (hplace : s.place = .poll) (hopen : b.closed = false) :
    Moves s .poll { s with place := .returned 0 }
  | pollin {b} (hb : s.current = some b) (hplace : s.place = .poll) (hopen : b.closed = false) :
    Moves s .poll { s with place := .read }
  | pollhup {b} (hb : s.current = some b) (hplace : s.place = .poll) (hclosed : b.closed = true) :
    Moves s .poll { s with bashWork := false, place := .returned 1 }
  | readError (hplace : s.place = .read) : Moves s (.read none) { s with place := .returned (-1) }
  | read {fd b n} (hfd : s.fd = some fd) (hb : s.bashes[fd]? = some b) (hplace : s.place = .read) (hn : n ≤ bufSz)
    (hle : n ≤ b.unread.length) :
    Moves s (.read (some n))
      { s.setBash fd (b.take n) with place := .sendInfo n (padded bufSz (b.unread.take n)) }
  | sendInfo {fd b ret readbuf ok} (hfd : s.fd = some fd) (hb : s.bashes[fd]? = some b)
    (hplace : s.place = .sendInfo ret readbuf) :
    Moves s (.sendInfo ok)
      { s with sent := s.sent ++ [⟨fd, ret, readbuf⟩], place := if ok then .poll else .returned (-1) }
  | ret {r} (hplace : s.place = .returned r) : Moves s .ret { s with place := if r < 0 then .exited else .idle }
  | write {i b data} (hb : s.bashes[i]? = some b) (hopen : b.closed = false) :
    Moves s (.write i data) (s.setBash i { b with unread := b.unread ++ data })
  | close {i b} (hb : s.bashes[i]? = some b) : Moves s (.close i) (s.setBash i { b with closed := true })
  | exit {i b} (hb : s.bashes[i]? = some b) :
    Moves s (.exit i) { s.setBash i { b with running := false } with bashWork := false }

/-- The flags that `poll` reports in its three outcomes. -/
private theorem closed_of_revents {b : Bash} (h : ¬ b.revents = ⟨false, false⟩) (h' : ¬ b.revents = ⟨true, false⟩) :
    b.closed = true := by
  cases hclosed : b.closed with
  | true => rfl
  | false =>
    cases hempty : b.unread.isEmpty <;> simp [Bash.revents, hclosed, hempty] at h h'

private theorem moves_readBash {fd : Nat} {b : Bash} (hfd : s.fd = some fd) (hb : s.bashes[fd]? = some b)
    (hs : s.readBash fd b a = some t) : Moves s a t := by
  have hcur : s.current = some b := by rw [State.current, hfd, Option.bind_some, hb]
  cases a with
  | poll =>
    simp only [State.readBash] at hs
    split at hs
    · rename_i hplace
      split at hs
      · rename_i hr
        cases hs
        exact .nothing hcur hplace (congrArg Revents.pollhup hr)
      · rename_i hr
        split at hs
        · rename_i hr'
          cases hs
          exact .pollin hcur hplace (congrArg Revents.pollhup hr')
        · rename_i hr'
          cases hs
          exact .pollhup hcur hplace (closed_of_revents hr hr')
    · cases hs
  | read ret =>
    cases ret with
    | none =>
      simp only [State.readBash] at hs
      split at hs <;> cases hs
      rename_i hplace
      exact .readError hplace
    | some n =>
      simp only [State.readBash] at hs
      split at hs <;> cases hs
      rename_i h
      obtain ⟨hplace, -, hn, hle⟩ := h
      exact .read hfd hb hplace hn hle
  | sendInfo ok =>
    simp only [State.readBash] at hs
    split at hs <;> cases hs
    rename_i hplace
    exact .sendInfo hfd hb hplace
  | _ => cases hs

theorem moves_of_step (hs : s.step a = some t) : Moves s a t := by
  cases a with
  | command childBuf ok =>
    simp only [State.step] at hs
    split at hs <;> cases hs
    rename_i hidle
    exact .command hidle
  | poll | read ret | sendInfo ok =>
    obtain ⟨fd, hfd, hs⟩ := Option.bind_eq_some_iff.1 hs
    obtain ⟨b, hb, hs⟩ := Option.bind_eq_some_iff.1 hs
    exact moves_readBash hfd hb hs
  | ret =>
    simp only [State.step] at hs
    split at hs <;> cases hs
    rename_i hplace
    exact .ret hplace
  | write i data =>
    obtain ⟨b', hb', rfl⟩ := Option.map_eq_some_iff.1 hs
    obtain ⟨b, hb, hact⟩ := Option.bind_eq_some_iff.1 hb'
    simp only [Bash.act] at hact
    split at hact <;> cases hact
    rename_i hopen
    exact .write hb (Bool.eq_false_iff.2 hopen)
  | close i =>
    obtain ⟨b', hb', rfl⟩ := Option.map_eq_some_iff.1 hs
    obtain ⟨b, hb, hact⟩ := Option.bind_eq_some_iff.1 hb'
    cases hact
    exact .close hb
  | exit i =>
    simp only [State.step] at hs
    split at hs
    · cases hs
    · obtain ⟨b', hb', rfl⟩ := Option.map_eq_some_iff.1 hs
      obtain ⟨b, hb, hact⟩ := Option.bind_eq_some_iff.1 hb'
      simp only [Bash.act] at hact
      split at hact <;> cases hact
      exact .exit hb

/-- The bash behind `*fd` after a step of one of the bashes. -/
theorem current_setBash {i : Nat} {b b' : Bash} (hb : s.bashes[i]? = some b) :
    (s.setBash i b').current = if s.fd = some i then some b' else s.current := by
  obtain ⟨hi, -⟩ := List.getElem?_eq_some_iff.1 hb
  cases hfd : s.fd with
  | none => simp [State.current, State.setBash, hfd]
  | some j =>
    by_cases hij : i = j
    · subst hij
      simp [State.current, State.setBash, hfd, hi]
    · have hji : ¬ j = i := fun h => hij h.symm
      simp [State.current, State.setBash, hfd, List.getElem?_set_ne hij, hji]

/-- A condition on closed ptys, where the one behind `*fd` is open. -/
theorem forall_closed_of_open {P : Bash → Prop} {b : Bash} (hb : s.current = some b) (hopen : b.closed = false) :
    ∀ b' ∈ s.current, b'.closed = true → P b' := by
  intro b' hb' hclosed
  obtain rfl : b = b' := Option.some.inj (hb.symm.trans hb')
  rw [hopen] at hclosed
  cases hclosed

end Steps

end UnixTasks.Udp.Shell
