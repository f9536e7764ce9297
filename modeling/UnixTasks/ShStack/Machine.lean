import UnixTasks.Lib.Run
import UnixTasks.ShStack.Kernel

/-!
# The functions of stack.c, one system call at a time

A process is in no call or at one of the system calls (or slot accesses) of the call it is in; what the C function
does between two of them is local and belongs to the step before it.  The locals of the call (`size`, `count`, the
`struct sembuf` that is patched field by field) are kept with the place.  What calls have returned is written to a log.

The messages that the functions print are left out, and so are `detach_stack` and `mark_destruct`.
-/

namespace UnixTasks.ShStack

structure Timespec where
  tvSec : Int
  tvNsec : Int
  deriving DecidableEq, Repr

/-- `struct stack_t`. -/
structure StackT where
  idKey : Int
  wait : Int
  sem : Int
  shStack : Int
  timeout : Timespec
  deriving DecidableEq, Repr

/-- The result of a call, with the value that went in or came out of the stack. -/
inductive Ret (V : Type) where
  | attach (ok : Bool)
  | push (val : V) (ret : Int)
  | pop (out : Option V) (ret : Int)
  | printAll (ret : Int)
  | getSize (ret : Int)
  | getCount (ret : Int)
  | setWait (ret : Int)
  deriving DecidableEq, Repr

/-- The calls a process can make. -/
inductive Op (V : Type) where
  | attach (size : Int)
  | push (val : V)
  | pop
  | printAll
  | getSize
  | getCount
  | setWait (val : Int) (timeout : Timespec)
  deriving DecidableEq, Repr

/-- Where a process is in `attach_stack`: the first `shmget`, then the calls of the branch for an existing stack
(`old`) or for a new one (`new`), then `shmat` and the last `semctl`. -/
inductive AttachPc where
  | probe (size : Int)
  | oldShm (size : Int) (stack : StackT)
  | oldSem (stack : StackT)
  | oldMutex (stack : StackT)
  | newShm (size : Int) (stack : StackT)
  | newSem (size : Int) (stack : StackT)
  | newSize (size : Int) (stack : StackT)
  | newCount (stack : StackT)
  | newMutex (stack : StackT)
  | shmat (stack : StackT)
  | size1 (stack : StackT)
  deriving DecidableEq, Repr

inductive PushPc where
  | size
  | count (size : Int)
  | spin (size : Int) (buf : SemBuf)
  | nanosleep (size : Int) (buf : SemBuf)
  | recount (size : Int) (buf : SemBuf)
  | lock (count : Int) (buf : SemBuf)
  | write (count : Int) (buf : SemBuf)
  | incr (buf : SemBuf)
  | unlock (buf : SemBuf)
  deriving DecidableEq, Repr

inductive PopPc (V : Type) where
  | count
  | spin (buf : SemBuf)
  | nanosleep (buf : SemBuf)
  | recount (buf : SemBuf)
  | lock (count : Int) (buf : SemBuf)
  | read (count : Int) (buf : SemBuf)
  | decr (out : V) (buf : SemBuf)
  | unlock (out : V) (buf : SemBuf)
  deriving DecidableEq, Repr

inductive PrintPc where
  | size
  | count
  | lock (count : Int) (buf : SemBuf)
  | read (i : Nat) (count : Int) (buf : SemBuf)
  | unlock (buf : SemBuf)
  deriving DecidableEq, Repr

inductive Pc (V : Type) where
  | idle
  | attach (pc : AttachPc)
  | push (val : V) (pc : PushPc)
  | pop (pc : PopPc V)
  | printAll (pc : PrintPc)
  | getSize
  | getCount
  | setWait (val : Int) (timeout : Timespec)
  deriving DecidableEq, Repr

/-- What a step of a call leads to: a further place in it, or its return. -/
inductive Next (V Place : Type) where
  | goto (pc : Place)
  | ret (r : Ret V)

variable {V : Type}

/-! ### attach_stack -/

/-- The stack that `attach_stack` returns; `none` for `NULL`. -/
def attachStep [Zero V] (k : Kernel V) : AttachPc → Kernel V × (AttachPc ⊕ Option StackT)
  | .probe size =>
    let (k, idKey) := k.shmget size ipcExcl
    let stack : StackT := ⟨idKey, -1, 0, 0, ⟨0, 0⟩⟩
    if 0 < stack.idKey then (k, .inl (.oldShm size stack)) else (k, .inl (.newShm size stack))
  | .oldShm size stack =>
    let (k, idKey) := k.shmget size ipcCreat
    (k, .inl (.oldSem { stack with idKey := idKey }))
  | .oldSem stack =>
    let (k, sem) := k.semget 3 ipcExcl
    (k, .inl (.oldMutex { stack with sem := sem }))
  | .oldMutex stack => (k.setval stack.sem 2 1, .inl (.shmat stack))
  | .newShm size stack =>
    let (k, idKey) := k.shmget size ipcCreat
    (k, .inl (.newSem size { stack with idKey := idKey }))
  | .newSem size stack =>
    let (k, sem) := k.semget 3 ipcCreat
    (k, .inl (.newSize size { stack with sem := sem }))
  | .newSize size stack => (k.setval stack.sem 0 size, .inl (.newCount stack))
  | .newCount stack => (k.setval stack.sem 1 0, .inl (.newMutex stack))
  | .newMutex stack => (k.setval stack.sem 2 1, .inl (.shmat stack))
  | .shmat stack =>
    let stack := { stack with shStack := k.shmat stack.idKey }
    -- an address compares as unsigned, so `sh_stack <= 0` only holds of `NULL`, which `shmat` never returns
    if stack.idKey ≤ 0 then (k, .inr none) else (k, .inl (.size1 stack))
  -- the value read into `size1` is not used
  | .size1 stack => (k, .inr (some stack))

/-! ### push and pop -/

/-- `buf.sem_num = 2, buf.sem_op = -1`. -/
def lockBuf : SemBuf := ⟨2, -1⟩

/-- `push` after its two reads: what it does when the stack is full depends on the wait mode. -/
def pushTest (stack : StackT) (val : V) (size count : Int) : Next V PushPc :=
  if count = size then
    if stack.wait = -1 then .ret (.push val (-1))
    else if stack.wait = 0 then .goto (.spin size lockBuf)
    else if stack.wait = 1 then .goto (.nanosleep size lockBuf)
    else .goto (.lock count lockBuf)
  else .goto (.lock count lockBuf)

def pushStep (k : Kernel V) (stack : StackT) (val : V) : PushPc → Option (Kernel V × Next V PushPc)
  | .size => some (k, .goto (.count (k.getval stack.sem 0)))
  | .count size => some (k, pushTest stack val size (k.getval stack.sem 1))
  | .spin size buf =>
    let count := k.getval stack.sem 1
    some (k, if count = size then .goto (.spin size buf) else .goto (.lock count buf))
  | .nanosleep size buf => some (k, .goto (.recount size buf))
  | .recount size buf =>
    let count := k.getval stack.sem 1
    some (k, if count = size then .ret (.push val (-1)) else .goto (.lock count buf))
  | .lock count buf => (k.semop stack.sem buf).map fun k => (k, .goto (.write count buf))
  | .write count buf =>
    (k.store stack.shStack count val).map fun k => (k, .goto (.incr { buf with semOp := 1, semNum := 1 }))
  | .incr buf => (k.semop stack.sem buf).map fun k => (k, .goto (.unlock { buf with semNum := 2 }))
  | .unlock buf => (k.semop stack.sem buf).map fun k => (k, .ret (.push val 0))

/-- `pop` after its read. -/
def popTest (stack : StackT) (count : Int) : Next V (PopPc V) :=
  if count = 0 then
    if stack.wait = -1 then .ret (.pop none (-1))
    else if stack.wait = 0 then .goto (.spin lockBuf)
    else if stack.wait = 1 then .goto (.nanosleep lockBuf)
    else .goto (.lock count lockBuf)
  else .goto (.lock count lockBuf)

def popStep (k : Kernel V) (stack : StackT) : PopPc V → Option (Kernel V × Next V (PopPc V))
  | .count => some (k, popTest stack (k.getval stack.sem 1))
  | .spin buf =>
    let count := k.getval stack.sem 1
    some (k, if count = 0 then .goto (.spin buf) else .goto (.lock count buf))
  | .nanosleep buf => some (k, .goto (.recount buf))
  | .recount buf =>
    let count := k.getval stack.sem 1
    some (k, if count = 0 then .ret (.pop none (-1)) else .goto (.lock count buf))
  | .lock count buf => (k.semop stack.sem buf).map fun k => (k, .goto (.read count buf))
  | .read count buf =>
    (k.load stack.shStack (count - 1)).map fun out => (k, .goto (.decr out { buf with semOp := -1, semNum := 1 }))
  | .decr out buf => (k.semop stack.sem buf).map fun k => (k, .goto (.unlock out { buf with semOp := 1, semNum := 2 }))
  | .unlock out buf => (k.semop stack.sem buf).map fun k => (k, .ret (.pop (some out) 0))

/-! ### print_all -/

/-- The head of the loop `for (i = 0; i < count; i++)`. -/
def printLoop (i : Nat) (count : Int) (buf : SemBuf) : PrintPc :=
  if (i : Int) < count then .read i count buf else .unlock { buf with semOp := 1 }

def printStep (k : Kernel V) (stack : StackT) : PrintPc → Option (Kernel V × Next V PrintPc)
  | .size => some (k, .goto .count)
  | .count => some (k, .goto (.lock (k.getval stack.sem 1) lockBuf))
  | .lock count buf => (k.semop stack.sem buf).map fun k => (k, .goto (printLoop 0 count buf))
  | .read i count buf => (k.load stack.shStack i).map fun _ => (k, .goto (printLoop (i + 1) count buf))
  | .unlock buf => (k.semop stack.sem buf).map fun k => (k, .ret (.printAll 0))

/-! ### A process -/

/-- A process: the stack pointer it holds (`none` for `NULL`) and its place. -/
structure Proc (V : Type) where
  stack : Option StackT
  pc : Pc V
  deriving DecidableEq, Repr

/-- The first place of a call. -/
def Op.start : Op V → Pc V
  | .attach size => .attach (.probe size)
  | .push val => .push val .size
  | .pop => .pop .count
  | .printAll => .printAll .size
  | .getSize => .getSize
  | .getCount => .getCount
  | .setWait val timeout => .setWait val timeout

/-- The process after a step of a call whose places are embedded by `place`. -/
def Next.resume {Place : Type} (p : Proc V) (place : Place → Pc V) : Next V Place → Proc V × Option (Ret V)
  | .goto pc => ({ p with pc := place pc }, none)
  | .ret r => ({ p with pc := .idle }, some r)

/-- One step of a process: the kernel, the process and what its call returns with this step. -/
def Proc.step [Zero V] (k : Kernel V) (p : Proc V) : Option (Kernel V × Proc V × Option (Ret V)) :=
  match p.pc with
  | .idle => none
  | .attach pc =>
    match attachStep k pc with
    | (k, .inl pc) => some (k, { p with pc := .attach pc }, none)
    | (k, .inr stack) => some (k, ⟨stack, .idle⟩, some (.attach stack.isSome))
  | .push val pc =>
    p.stack.bind fun stack => (pushStep k stack val pc).map fun (k, next) => (k, next.resume p (.push val))
  | .pop pc => p.stack.bind fun stack => (popStep k stack pc).map fun (k, next) => (k, next.resume p .pop)
  | .printAll pc => p.stack.bind fun stack => (printStep k stack pc).map fun (k, next) => (k, next.resume p .printAll)
  | .getSize => p.stack.map fun stack => (k, { p with pc := .idle }, some (.getSize (k.getval stack.sem 0)))
  | .getCount => p.stack.map fun stack => (k, { p with pc := .idle }, some (.getCount (k.getval stack.sem 1)))
  | .setWait val timeout => p.stack.map fun stack =>
    (k, ⟨some { stack with wait := val, timeout := if val = 1 then timeout else stack.timeout }, .idle⟩,
      some (.setWait 0))

/-! ### All processes together -/

structure State (P V : Type) where
  kernel : Kernel V
  proc : P → Proc V
  /-- What the calls have returned, in order. -/
  log : List (P × Ret V)

/-- A process enters a call, or takes the next step of the call it is in. -/
inductive Action (P V : Type) where
  | call (p : P) (op : Op V)
  | step (p : P)
  deriving DecidableEq, Repr

variable {P : Type} [DecidableEq P]

def State.step [Zero V] (s : State P V) : Action P V → Option (State P V)
  | .call p op =>
    match (s.proc p).pc with
    | .idle => some { s with proc := Function.update s.proc p { s.proc p with pc := op.start } }
    | _ => none
  | .step p => ((s.proc p).step s.kernel).map fun (k, q, r) =>
    ⟨k, Function.update s.proc p q, s.log ++ (r.map (p, ·)).toList⟩

/-- No call is in progress. -/
def Quiescent (s : State P V) : Prop := ∀ p, (s.proc p).pc = .idle

end UnixTasks.ShStack
