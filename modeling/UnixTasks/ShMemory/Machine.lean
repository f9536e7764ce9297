import UnixTasks.Lib.Run

/-!
# The two programs of sh_memory

`main.c` sends a file one byte at a time through a shared cell, `hand.c` writes the bytes it reads there to a copy.
The semaphore `sem2` counts bytes (and the end) offered to the receiver, `sem1` counts rounds given back to the
sender.  After the last byte the sender does not wait for the receiver: it raises SIGUSR1, whose handler clears the
receiver's `flag`, and posts `sem2` once more.

One action is one statement of one of the two processes.  The model starts where both have opened the semaphores
(lines 33 of `main.c` and 37 of `hand.c`); `kill` clears the flag at once.  The C `int i` of the sender is a natural
number: it counts the bytes of the file.
-/

namespace UnixTasks.ShMemory

open ActionSystem

/-- The bytes of the file and of the shared cell. -/
abbrev Byte := BitVec 8

/-- The statements of `main.c`. -/
inductive MainPc where
  | semWaitPid | readPid | read | store | post | test | semWait | incr | kill | postEnd | semWaitEnd | done
  deriving DecidableEq, Repr

/-- The statements of `hand.c`. -/
inductive HandPc where
  | storePid | postPid | semWaitFirst | testFlag | print | write | post | semWait | postEnd | done
  deriving DecidableEq, Repr

/-- The process that moves. -/
inductive Party where
  | main | hand
  deriving DecidableEq, Repr

structure State where
  sem1 : Nat
  sem2 : Nat
  /-- `sh_pid[0]`, the cell of the first segment. -/
  shPid : Int
  /-- `sh_str[0]`, the cell of the second segment. -/
  shStr : Byte
  mainPc : MainPc
  pid : Int
  buf : Byte
  i : Nat
  /-- The read offset of the sender's file. -/
  offset : Nat
  handPc : HandPc
  flag : Bool
  printed : List Byte
  written : List Byte
  deriving DecidableEq, Repr

/-- Both processes start with both semaphores at 0; the two cells hold whatever the segments held. -/
def init (shPid : Int) (shStr : Byte) (pid : Int) (buf : Byte) : State where
  sem1 := 0
  sem2 := 0
  shPid := shPid
  shStr := shStr
  mainPc := .semWaitPid
  pid := pid
  buf := buf
  i := 0
  offset := 0
  handPc := .storePid
  flag := true
  printed := []
  written := []

/-- One statement of `main.c` on the file `file`, with the receiver running as process `handPid`. -/
def mainStep (file : List Byte) (handPid : Int) (s : State) : Option State :=
  match s.mainPc with
  | .semWaitPid => if 0 < s.sem1 then some { s with sem1 := s.sem1 - 1, mainPc := .readPid } else none
  | .readPid => some { s with pid := s.shPid, mainPc := .read }
  | .read =>
    match file[s.offset]? with
    | some b => some { s with buf := b, offset := s.offset + 1, mainPc := .store }
    | none => some { s with mainPc := .kill }
  | .store => some { s with shStr := s.buf, mainPc := .post }
  | .post => some { s with sem2 := s.sem2 + 1, mainPc := .test }
  | .test => some { s with mainPc := if (s.i : Int) < (file.length : Int) - 1 then .semWait else .incr }
  | .semWait => if 0 < s.sem1 then some { s with sem1 := s.sem1 - 1, mainPc := .incr } else none
  | .incr => some { s with i := s.i + 1, mainPc := .read }
  | .kill => some { s with flag := if s.pid = handPid then false else s.flag, mainPc := .postEnd }
  | .postEnd => some { s with sem2 := s.sem2 + 1, mainPc := .semWaitEnd }
  | .semWaitEnd => if 0 < s.sem1 then some { s with sem1 := s.sem1 - 1, mainPc := .done } else none
  | .done => none

/-- One statement of `hand.c`. -/
def handStep (handPid : Int) (s : State) : Option State :=
  match s.handPc with
  | .storePid => some { s with shPid := handPid, handPc := .postPid }
  | .postPid => some { s with sem1 := s.sem1 + 1, handPc := .semWaitFirst }
  | .semWaitFirst => if 0 < s.sem2 then some { s with sem2 := s.sem2 - 1, handPc := .testFlag } else none
  | .testFlag => some { s with handPc := if s.flag then .print else .postEnd }
  | .print => some { s with printed := s.printed ++ [s.shStr], handPc := .write }
  | .write => some { s with written := s.written ++ [s.shStr], handPc := .post }
  | .post => some { s with sem1 := s.sem1 + 1, handPc := .semWait }
  | .semWait => if 0 < s.sem2 then some { s with sem2 := s.sem2 - 1, handPc := .testFlag } else none
  | .postEnd => some { s with sem1 := s.sem1 + 1, handPc := .done }
  | .done => none

def step (file : List Byte) (handPid : Int) (s : State) : Party → Option State
  | .main => mainStep file handPid s
  | .hand => handStep handPid s

/-- Both processes have reached their end. -/
def Finished (s : State) : Prop := s.mainPc = .done ∧ s.handPc = .done

instance (s : State) : Decidable (Finished s) := inferInstanceAs (Decidable (_ ∧ _))

/-- When the sender executes `kill`, the receiver has taken the last post of `sem2` and is past the test of `flag`
that follows it. -/
def KillAfterTest (s : State) (a : Party) : Prop :=
  a = .main → s.mainPc = .kill → s.sem2 = 0 ∧ s.handPc ≠ .testFlag

end UnixTasks.ShMemory
