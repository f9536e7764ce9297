import Mathlib.Logic.Function.Basic
import UnixTasks.Lib.MsgQueue
import UnixTasks.Lib.Run

/-!
# sen.c and rec.c

A sender throws away the queue that it finds under the key, makes a new one, puts its pid into it as a message of type
1 and waits for a message of type 2.  A receiver takes a message of type 1 and answers with its own pid.  Any number of
processes run both programs at the same time, and the queue that exists at the start may hold any messages of theirs.

A process is at its next system call.  What the programs print is written to a log; `none` stands for the value of a
variable that was never set.  The results of the calls are not looked at, as in the source.

The size that the calls pass is that of `struct msgbuf` with its `dir`, 8 bytes more than the text of a message has.  So
`msgsnd` also sends the two `int`s that lie behind `msg` in the memory of the process, and `msgrcv` writes over them.
What lies there is up to the compiler (`Frame`); where it is a variable that is still needed, the program goes on with
the value that the other process had there.  A guard that lies there is looked at when `main` returns, after all calls.

* (`senStep`, `recStep`) the two programs;
* (`Setting`, `State.step`) any number of processes that run them;
* (`Setting.Apart`) the variables that are needed after `msgrcv` do not lie behind `msg`.
-/

namespace UnixTasks.Msg

open ActionSystem MsgQueue

/-! ### The memory behind msg -/

/-- The variables of `main` besides `msg`. -/
inductive Var where
  | key
  | id
  | pid
  deriving DecidableEq, Repr

/-- The two `int`s behind `msg`: the variables that the compiler keeps there, and what lies there otherwise. -/
structure Frame where
  first : Option Var
  second : Option Var
  rest : Int × Int
  deriving DecidableEq, Repr

namespace Frame

/-- The two `int`s, when the variables have these values. -/
def behind (f : Frame) (vars : Var → Int) : Int × Int :=
  ((f.first.map vars).getD f.rest.1, (f.second.map vars).getD f.rest.2)

/-- The value of a variable when the two `int`s have been written over; it was `x`. -/
def read (f : Frame) (v : Var) (x : Int) (behind : Int × Int) : Int :=
  if f.first = some v then behind.1 else if f.second = some v then behind.2 else x

/-- The variable lies elsewhere. -/
def Apart (f : Frame) (v : Var) : Prop := f.first ≠ some v ∧ f.second ≠ some v

instance (f : Frame) (v : Var) : Decidable (f.Apart v) := inferInstanceAs (Decidable (_ ∧ _))

theorem Apart.read {f : Frame} {v : Var} (h : f.Apart v) (x : Int) (behind : Int × Int) : f.read v x behind = x := by
  rw [Frame.read, if_neg h.1, if_neg h.2]

end Frame

/-- What `msgget` returns. -/
def idInt : Option Nat → Int
  | some id => id
  | none => -1

/-- The queue that a number stands for. -/
def toId (x : Int) : Option Nat := if 0 ≤ x then some x.toNat else none

private theorem toId_idInt (id : Option Nat) : toId (idInt id) = id := by
  cases id with
  | none => rfl
  | some id => rw [idInt, toId, if_pos (Int.natCast_nonneg id), Int.toNat_natCast]

/-! ### The programs -/

/-- What a message carries: `msg.pid` and the two `int`s behind `msg`.  The bytes between them belong to nothing. -/
structure Text where
  pid : Int
  behind : Int × Int
  deriving DecidableEq, Repr

/-- What a program prints. -/
inductive Line where
  | sent (pid : Int)
  | received (pid : Option Int)
  deriving DecidableEq, Repr

/-- The next system call of sen.c. -/
inductive SenPc where
  | msgget
  | rmid (id : Nat)
  | msgget2
  | msgsnd (id : Nat)
  | msgrcv (id : Nat)
  | rmid2 (id : Option Nat)
  | done
  deriving DecidableEq, Repr

/-- The next system call of rec.c; `msgget(key, 0)` may have failed. -/
inductive RecPc where
  | msgget
  | msgrcv (id : Option Nat)
  | msgsnd (id : Option Nat) (text : Text)
  | done
  deriving DecidableEq, Repr

/-- A process: its pid, the value of `key`, and what lies behind `msg`. -/
structure Process where
  pid : Int
  key : Int
  frame : Frame

/-- The variables of a process. -/
def Process.vars (p : Process) (id : Option Nat) : Var → Int
  | .key => p.key
  | .id => idInt id
  | .pid => p.pid

/-- The two `int`s behind `msg` after a `msgrcv`; a call that fails leaves them as they were. -/
def Process.received (p : Process) (id : Option Nat) (m : Option (Msg Text)) : Int × Int :=
  (m.map fun m => m.data.behind).getD (p.frame.behind (p.vars id))

/-- The variables `id` and `pid` after a `msgrcv`. -/
def Process.idAfter (p : Process) (id : Option Nat) (m : Option (Msg Text)) : Option Nat :=
  toId (p.frame.read .id (idInt id) (p.received id m))

def Process.pidAfter (p : Process) (id : Option Nat) (m : Option (Msg Text)) : Int :=
  p.frame.read .pid p.pid (p.received id m)

/-- One step of a sender. -/
def senStep (cap : Nat) (p : Process) (k : Kernel Text) : SenPc → Option (Kernel Text × SenPc × Option Line)
  | .msgget => some (k.msgget.1, .rmid k.msgget.2, none)
  | .rmid id => some (k.msgctlRmid (some id), .msgget2, none)
  | .msgget2 => some (k.msgget.1, .msgsnd k.msgget.2, none)
  | .msgsnd id => (k.msgsnd cap (some id) ⟨1, ⟨p.pid, p.frame.behind (p.vars (some id))⟩⟩).map fun k =>
    (k, .msgrcv id, some (.sent p.pid))
  | .msgrcv id => (k.msgrcv (some id) 2).map fun (k, m) =>
    -- a failed call leaves the own pid in `msg`
    (k, .rmid2 (p.idAfter (some id) m), some (.received (some ((m.map fun m => m.data.pid).getD p.pid))))
  | .rmid2 id => some (k.msgctlRmid id, .done, none)
  | .done => none

/-- One step of a receiver. -/
def recStep (cap : Nat) (p : Process) (k : Kernel Text) : RecPc → Option (Kernel Text × RecPc × Option Line)
  | .msgget => some (k, .msgrcv k.find, none)
  | .msgrcv id => (k.msgrcv id 1).map fun (k, m) =>
    (k, .msgsnd (p.idAfter id m) ⟨p.pidAfter id m, p.received id m⟩, some (.received (m.map fun m => m.data.pid)))
  | .msgsnd id text => (k.msgsnd cap id ⟨2, text⟩).map fun k => (k, .done, some (.sent text.pid))
  | .done => none

/-! ### All processes together -/

structure State (S R : Type) where
  kernel : Kernel Text
  sen : S → SenPc
  rcv : R → RecPc
  log : List ((S ⊕ R) × Line)

/-- The processes and the capacity of a queue. -/
structure Setting (S R : Type) where
  sen : S → Process
  rcv : R → Process
  cap : Nat

variable {S R : Type}

/-- A process makes its next system call. -/
def State.step [DecidableEq S] [DecidableEq R] (c : Setting S R) (s : State S R) : S ⊕ R → Option (State S R)
  | .inl i => (senStep c.cap (c.sen i) s.kernel (s.sen i)).map fun (k, pc, l) =>
    ⟨k, Function.update s.sen i pc, s.rcv, s.log ++ (l.map (.inl i, ·)).toList⟩
  | .inr r => (recStep c.cap (c.rcv r) s.kernel (s.rcv r)).map fun (k, pc, l) =>
    ⟨k, s.sen, Function.update s.rcv r pc, s.log ++ (l.map (.inr r, ·)).toList⟩

/-- Nobody has begun. -/
def start (S R : Type) (k : Kernel Text) : State S R := ⟨k, fun _ => .msgget, fun _ => .msgget, []⟩

/-- The variables that are needed after `msgrcv` do not lie behind `msg`. -/
structure Setting.Apart (c : Setting S R) : Prop where
  sen : ∀ i, (c.sen i).frame.Apart .id
  rcv : ∀ r, (c.rcv r).frame.Apart .id ∧ (c.rcv r).frame.Apart .pid

theorem Process.idAfter_of_apart {p : Process} (h : p.frame.Apart .id) (id : Option Nat) (m : Option (Msg Text)) :
    p.idAfter id m = id := by
  rw [Process.idAfter, h.read, toId_idInt]

theorem Process.pidAfter_of_apart {p : Process} (h : p.frame.Apart .pid) (id : Option Nat) (m : Option (Msg Text)) :
    p.pidAfter id m = p.pid := h.read _ _

end UnixTasks.Msg
