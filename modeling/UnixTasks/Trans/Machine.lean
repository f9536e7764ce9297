import UnixTasks.Lib.CString
import UnixTasks.Lib.Run

/-!
# The file transfer of trans: handler.c and main.c

One receiver (handler.c) and any number of senders (main.c), one statement at a time.  A signal that has been sent is
pending until it is delivered; signals to one process are delivered in the order in which they were sent, and one that
is sent while the same signal is still pending may be merged with it.  A delivered signal starts its handler on top of
whatever the process is doing, unless the handler of the same signal is running; the main flow goes on when all
handlers have returned.

A sender's file is regular and can be read, and nobody presses Ctrl-C.
-/

namespace UnixTasks.Trans

open CString

/-- `sizeof(void*)`. -/
def ptrSize : Nat := 8

/-- `pending` after a signal has been sent; `merge` says whether one with the same number swallows it. -/
def enqueue {σ ν : Type} [DecidableEq ν] (no : σ → ν) (merge : Bool) (sig : σ) (pending : List σ) : List σ :=
  if merge && pending.any (fun s => no s = no sig) then pending else pending ++ [sig]

/-! ### handler.c -/

inductive SigNo where
  | usr1 | term | chld
  deriving DecidableEq, Repr

/-- A signal to the receiver: SIGUSR1 with its value, SIGTERM, and SIGCHLD with the pid of its sender. -/
inductive Sig (P : Type) where
  | usr1 (val : List CChar)
  | term
  | chld (pid : P)
  deriving DecidableEq, Repr

/-- The next statement of a handler that is running: `memcpy` and `flag = 1` of `shandler_1`, `i = 0` of
`handler_stop`, the test, the `kill` and the two assignments of `killrest`. -/
inductive Frame (P : Type) where
  | copy (val : List CChar)
  | setFlag
  | stop
  | test (pid : P)
  | kill (pid : P)
  | ignite (pid : P)
  | setPid (pid : P)
  deriving DecidableEq, Repr

variable {P : Type}

def Sig.no : Sig P → SigNo
  | .usr1 _ => .usr1
  | .term => .term
  | .chld _ => .chld

def Frame.no : Frame P → SigNo
  | .copy _ | .setFlag => .usr1
  | .stop => .term
  | .test _ | .kill _ | .ignite _ | .setPid _ => .chld

/-- The first statement of the handler of a signal. -/
def Sig.handler : Sig P → Frame P
  | .usr1 val => .copy val
  | .term => .stop
  | .chld pid => .test pid

/-- The next statement of the receiver's `main`. -/
inductive RecvPc where
  | ignition | clear | ack | spin | test | write | writeLast | ackLast | done
  deriving DecidableEq, Repr

/-- A signal to a sender. -/
inductive SendSig where
  | usr1 | kill
  deriving DecidableEq, Repr

structure Receiver (P : Type) where
  i : Bool
  flag : Bool
  ignition : Bool
  mem : List CChar
  /-- 0 is no pid. -/
  pid : Option P
  pc : RecvPc
  /-- The handlers that are running, the innermost first. -/
  frames : List (Frame P)
  pending : List (Sig P)
  /-- What has been written to the file. -/
  out : List CChar
  /-- What the main flow has taken from `mem`, and whether it took the final branch. -/
  consumed : List (List CChar × Bool)
  deriving DecidableEq, Repr

/-- The statement `f` of the innermost handler; the other handlers are `rest`. -/
def Receiver.frameStep [DecidableEq P] (r : Receiver P) (f : Frame P) (rest : List (Frame P)) :
    Receiver P × Option (P × SendSig) :=
  match f with
  | .copy val => ({ r with mem := val, frames := .setFlag :: rest }, none)
  | .setFlag => ({ r with flag := true, frames := rest }, none)
  | .stop => ({ r with i := false, frames := rest }, none)
  | .test p =>
    if r.pid ≠ none ∧ r.pid ≠ some p then ({ r with frames := .kill p :: rest }, none)
    else ({ r with frames := .ignite p :: rest }, none)
  | .kill p => ({ r with frames := rest }, some (p, .kill))
  | .ignite p => ({ r with ignition := true, frames := .setPid p :: rest }, none)
  | .setPid p => ({ r with pid := some p, frames := rest }, none)

/-- The next statement of `main`, and the signal that it sends. -/
def Receiver.mainStep (r : Receiver P) : Option (Receiver P × Option (P × SendSig)) :=
  match r.pc with
  | .ignition => some (if r.ignition then { r with pc := .clear } else r, none)
  | .clear => some ({ r with flag := false, pc := .ack }, none)
  | .ack => some ({ r with pc := .spin }, r.pid.map (·, .usr1))
  | .spin => some (if r.flag then { r with pc := .test } else r, none)
  | .test => some ({ r with pc := if r.i then .write else .writeLast }, none)
  | .write =>
    some ({ r with out := r.out ++ r.mem.take ptrSize, consumed := r.consumed ++ [(r.mem, false)], pc := .clear }, none)
  | .writeLast =>
    some ({ r with out := r.out ++ cstr r.mem, consumed := r.consumed ++ [(r.mem, true)], pc := .ackLast }, none)
  | .ackLast => some ({ r with pc := .done }, r.pid.map (·, .usr1))
  | .done => none

def Receiver.step [DecidableEq P] (r : Receiver P) : Option (Receiver P × Option (P × SendSig)) :=
  match r.frames with
  | f :: rest => some (r.frameStep f rest)
  | [] => r.mainStep

/-- The first pending signal starts its handler. -/
def Receiver.deliver (r : Receiver P) : Option (Receiver P) :=
  match r.pending with
  | [] => none
  | sig :: rest =>
    if r.pc = .done ∨ r.frames.any (fun f => f.no = sig.no) then none
    else some { r with pending := rest, frames := sig.handler :: r.frames }

/-! ### main.c -/

/-- The next statement of a sender's `main`. -/
inductive SendPc where
  | clear0 | hello | spin0 | read | clear | term | nul | queue | spin | termLast | done | killed
  deriving DecidableEq, Repr

structure Sender where
  flag : Bool
  pc : SendPc
  /-- What is left of the file. -/
  rest : List CChar
  buf : List CChar
  ret : Nat
  /-- `handler` is running. -/
  handler : Bool
  pending : List SendSig
  /-- The payloads that have been queued, and whether the `read` before it was short. -/
  queued : List (List CChar × Bool)
  deriving DecidableEq, Repr

/-- The next statement of the sender `p`, and the signal that it sends. -/
def Sender.step (p : P) (q : Sender) : Option (Sender × Option (Sig P)) :=
  if q.handler then
    if q.pc = .killed then none else some ({ q with flag := true, handler := false }, none)
  else match q.pc with
  | .clear0 => some ({ q with flag := false, pc := .hello }, none)
  | .hello => some ({ q with pc := .spin0 }, some (.chld p))
  | .spin0 => some (if q.flag then { q with pc := .read } else q, none)
  | .read => some ({ q with
      ret := min ptrSize q.rest.length
      buf := q.rest.take ptrSize ++ q.buf.drop (min ptrSize q.rest.length)
      rest := q.rest.drop ptrSize
      pc := .clear }, none)
  | .clear => some ({ q with flag := false, pc := if q.ret < ptrSize then .term else .queue }, none)
  | .term => some ({ q with pc := .nul }, some .term)
  | .nul => some ({ q with buf := q.buf.set q.ret 0, pc := .queue }, none)
  | .queue =>
    some ({ q with queued := q.queued ++ [(q.buf, decide (q.ret < ptrSize))], pc := .spin }, some (.usr1 q.buf))
  | .spin => some (if q.flag then { q with pc := if q.ret = ptrSize then .read else .termLast } else q, none)
  | .termLast => some ({ q with pc := .done }, some .term)
  | .done | .killed => none

/-- The first pending signal starts `handler`, or ends the process. -/
def Sender.deliver (q : Sender) : Option Sender :=
  match q.pending with
  | [] => none
  | .usr1 :: rest =>
    if q.pc = .done ∨ q.pc = .killed ∨ q.handler then none else some { q with pending := rest, handler := true }
  | .kill :: rest => if q.pc = .done ∨ q.pc = .killed then none else some { q with pending := rest, pc := .killed }

/-! ### All processes together -/

structure State (P : Type) where
  recv : Receiver P
  send : P → Sender

/-- The receiver or a sender executes a statement, or takes its first pending signal; `merge` is for the signal that
the statement sends. -/
inductive Action (P : Type) where
  | recv (merge : Bool)
  | deliverRecv
  | send (p : P) (merge : Bool)
  | deliverSend (p : P)
  deriving DecidableEq, Repr

def Receiver.signal (merge : Bool) (sig : Option (Sig P)) (r : Receiver P) : Receiver P :=
  match sig with
  | some sig => { r with pending := enqueue Sig.no merge sig r.pending }
  | none => r

def Sender.signal (merge : Bool) (sig : SendSig) (q : Sender) : Sender :=
  { q with pending := enqueue id merge sig q.pending }

def State.step [DecidableEq P] (s : State P) : Action P → Option (State P)
  | .recv merge => s.recv.step.map fun (r, sig) =>
    match sig with
    | some (p, sig) => ⟨r, Function.update s.send p ((s.send p).signal merge sig)⟩
    | none => ⟨r, s.send⟩
  | .deliverRecv => s.recv.deliver.map fun r => ⟨r, s.send⟩
  | .send p merge => ((s.send p).step p).map fun (q, sig) => ⟨s.recv.signal merge sig, Function.update s.send p q⟩
  | .deliverSend p => (s.send p).deliver.map fun q => ⟨s.recv, Function.update s.send p q⟩

/-- Every process at its first statement; `file p` is the file of the sender `p`, and nothing is known of the memory
that is not initialised. -/
def start (mem : List CChar) (buf file : P → List CChar) : State P where
  recv := ⟨true, true, false, mem, none, .ignition, [], [], [], []⟩
  send p := ⟨true, .clear0, file p, buf p, ptrSize, false, [], []⟩

end UnixTasks.Trans
