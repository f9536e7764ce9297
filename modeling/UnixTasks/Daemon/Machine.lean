import UnixTasks.Lib.CChar
import UnixTasks.Lib.Run
import Mathlib.Logic.Function.Basic

/-!
# The backup daemon: main.c

The daemon runs a call stack: `main` or a signal handler, in it `monitor_directory` (which calls itself) and then
`monitor_events` (which calls `monitor_directory`).  What it does next is a call of the system with what follows each
answer, or a step of its own (`State.next`); an action supplies the answer.  Handlers start only while the daemon waits
in `read`, and a handler replaces the path and the inotify instance in one step; two signals that are delivered together
are a matter of `Process`, in `Delivery`.

Strings are without their NUL, and the tables and the buffers have room for everything, unless something else is said
(`boundedMain`).
-/

namespace UnixTasks.Daemon

open CChar

/-- A path or a name. -/
abbrev Str := List CChar

/-- `strcpy`, `strcat` of `"/"` and `strcat` of the name. -/
def join (path name : Str) : Str := path ++ chr '/' :: name

/-- An entry that `readdir` returns, and whether its `d_type` is `DT_DIR`. -/
structure Entry where
  name : Str
  isDir : Bool
  deriving DecidableEq, Repr

/-- An event of inotify, with the three bits of its mask that are tested. -/
structure Event where
  wd : Nat
  create : Bool
  modify : Bool
  movedTo : Bool
  name : Str
  deriving DecidableEq, Repr

/-- The two requests of the controller. -/
inductive SigNo where
  | usr1 | usr2
  deriving DecidableEq, Repr

/-- The next statement of `monitor_directory`. -/
inductive ScanPc where
  | start | mkdir | watch | readdir
  | entries (es : List Entry)
  deriving DecidableEq, Repr

/-- The next statement of `monitor_events` for an event. -/
inductive EventPc where
  | check | create | createCopy | modify | movedTo | movedCopy
  deriving DecidableEq, Repr

/-- A function that is running: `monitor_directory`; `monitor_events` with the events of its buffer that are left; and
`main` (no signal) or a handler, which has called `monitor_events` or is yet to. -/
inductive Frame where
  | scan (path1 path2 : Str) (pc : ScanPc)
  | events (evs : List Event) (pc : EventPc)
  | caller (sig : Option SigNo) (listening : Bool)
  deriving DecidableEq, Repr

structure State where
  pathArgv1 : Str
  pathArgv2 : Str
  wds : Nat → Option Str
  backs : Nat → Option Str
  /-- The watch descriptors that the current inotify instance has issued. -/
  issued : List Nat
  /-- The shared memory of a request (the keys 24 and 28). -/
  shm : SigNo → Option Str
  /-- The signals that are pending. -/
  pending : List SigNo
  stack : List Frame

/-- What the daemon does next: a call of the system, with what follows each answer, or a step of its own.  `copy` has
the paths that the function `copy` opens. -/
inductive Next (σ : Type) where
  | opendir (path : Str) (k : Bool → σ)
  | mkdir (path : Str) (k : σ)
  | addWatch (path : Str) (k : Option Nat → σ)
  | readdir (path : Str) (k : List Entry → σ)
  | copy (path11 path22 : Str) (k : σ)
  | read (k : Option (List Event) → σ)
  | goto (s : σ)
  | exit

/-- `add_inotify`, when `inotify_add_watch` has returned `wd`. -/
def State.addInotify (s : State) (path1 path2 : Str) (wd : Option Nat) : State :=
  match wd with
  | none => s
  | some wd => { s with
      wds := Function.update s.wds wd (some path1)
      backs := Function.update s.backs wd (some path2)
      issued := wd :: s.issued }

/-- `monitor_directory(path1, path2, in)`, called from `rest`. -/
def State.monitorDirectory (s : State) (path1 path2 : Str) (pc : ScanPc) (rest : List Frame) : Next State :=
  match pc with
  | .start =>
    if path1 = s.pathArgv2 then .goto { s with stack := rest }
    else .opendir path1 fun ok => { s with stack := if ok then .scan path1 path2 .mkdir :: rest else rest }
  | .mkdir => .mkdir path2 { s with stack := .scan path1 path2 .watch :: rest }
  | .watch => .addWatch path1 fun wd =>
      { s.addInotify path1 path2 wd with stack := .scan path1 path2 .readdir :: rest }
  | .readdir => .readdir path1 fun es => { s with stack := .scan path1 path2 (.entries es) :: rest }
  | .entries [] => .goto { s with stack := rest }
  | .entries (e :: es) =>
    if e.name = [chr '.'] ∨ e.name = [chr '.', chr '.'] then
      .goto { s with stack := .scan path1 path2 (.entries es) :: rest }
    else if e.isDir then
      .goto { s with
        stack := .scan (join path1 e.name) (join path2 e.name) .start :: .scan path1 path2 (.entries es) :: rest }
    else
      .copy (join path1 e.name) (join path2 e.name) { s with stack := .scan path1 path2 (.entries es) :: rest }

/-- `monitor_events(in)`, called from `rest`.  It reads the two tables at every use: `monitor_directory` may have
replaced an entry in between. -/
def State.monitorEvents (s : State) (evs : List Event) (pc : EventPc) (rest : List Frame) : Next State :=
  match evs with
  | [] => .read fun
    | none => { s with stack := rest }
    | some evs => { s with stack := .events evs .check :: rest }
  | e :: es =>
    match s.wds e.wd, s.backs e.wd with
    | some wd, some back =>
      let path11 := join wd e.name
      let path22 := join back e.name
      let goto (pc : EventPc) : State := { s with stack := .events (e :: es) pc :: rest }
      let next : State := { s with stack := .events es .check :: rest }
      match pc with
      | .check => .goto (if path11 = s.pathArgv2 then next else goto .create)
      | .create =>
        if e.create then .opendir path11 fun ok =>
          if ok then { s with stack := .scan path11 path22 .start :: .events (e :: es) .modify :: rest }
          else goto .createCopy
        else .goto (goto .modify)
      | .createCopy => .copy path11 path22 (goto .modify)
      | .modify => if e.modify then .copy path11 path22 (goto .movedTo) else .goto (goto .movedTo)
      | .movedTo =>
        if e.movedTo then .opendir path11 fun ok =>
          if ok then { s with stack := .scan path11 path22 .start :: .events es .check :: rest }
          else goto .movedCopy
        else .goto next
      | .movedCopy => .copy path11 path22 next
    | _, _ => .exit

/-- What the daemon does next. -/
def State.next (s : State) : Next State :=
  match s.stack with
  | [] => .exit
  | .scan path1 path2 pc :: rest => s.monitorDirectory path1 path2 pc rest
  | .events evs pc :: rest => s.monitorEvents evs pc rest
  | .caller sig false :: rest => .goto { s with stack := .events [] .check :: .caller sig true :: rest }
  | .caller _ true :: rest => .goto { s with stack := rest }

/-- The daemon waits in `read`. -/
def State.waits (s : State) : Bool :=
  match s.stack with
  | .events [] _ :: _ => true
  | _ => false

/-- The controller writes `dir` to the shared memory and sends the signal. -/
def State.request (s : State) (sig : SigNo) (dir : Str) : State :=
  { s with shm := Function.update s.shm sig (some dir), pending := sig :: s.pending.filter (fun p => p ≠ sig) }

/-- The handler of the signal starts: it takes the path from the shared memory and opens a new inotify instance. -/
def State.handle (s : State) (sig : SigNo) : Option State :=
  if s.waits ∧ sig ∈ s.pending ∧ ∀ l, .caller (some sig) l ∉ s.stack then
    (s.shm sig).map fun dir =>
      let argv1 := if sig = .usr2 then dir else s.pathArgv1
      let argv2 := if sig = .usr1 then dir else s.pathArgv2
      { s with
        pathArgv1 := argv1
        pathArgv2 := argv2
        issued := []
        shm := Function.update s.shm sig none
        pending := s.pending.filter (fun p => p ≠ sig)
        stack := .scan argv1 argv2 .start :: .caller (some sig) false :: s.stack }
  else none

/-- The next step with the answer of the system, or a request of the controller, or the start of a handler. -/
inductive Action where
  | tau
  | opendir (ok : Bool)
  | addWatch (wd : Option Nat)
  | readdir (es : List Entry)
  | read (evs : Option (List Event))
  | request (sig : SigNo) (dir : Str)
  | handle (sig : SigNo)
  deriving DecidableEq, Repr

/-- An event carries a watch descriptor that the instance has issued. -/
def State.step (s : State) : Action → Option State
  | .tau =>
    match s.next with
    | .mkdir _ k | .copy _ _ k | .goto k => some k
    | _ => none
  | .opendir ok =>
    match s.next with
    | .opendir _ k => some (k ok)
    | _ => none
  | .addWatch wd =>
    match s.next with
    | .addWatch _ k => some (k wd)
    | _ => none
  | .readdir es =>
    match s.next with
    | .readdir _ k => some (k es)
    | _ => none
  | .read evs =>
    match s.next with
    | .read k => if ∀ e ∈ evs.getD [], e.wd ∈ s.issued then some (k evs) else none
    | _ => none
  | .request sig dir => if s.waits then some (s.request sig dir) else none
  | .handle sig => s.handle sig

/-- `main` up to its call of `monitor_directory`. -/
def main (argv1 argv2 : Str) : Option State :=
  if argv1 = argv2 then none
  else some ⟨argv1, argv2, fun _ => none, fun _ => none, [], fun _ => none, [],
    [.scan argv1 argv2 .start, .caller none false]⟩

/-- `malloc(100)`, of `path_argv1` and of `path_argv2`. -/
def argvSize : Nat := 100

/-- `main`, with no result where `strcpy` puts an argument and its NUL behind the end of its buffer. -/
def boundedMain (argv1 argv2 : Str) : Option State :=
  if argv1.length + 1 ≤ argvSize ∧ argv2.length + 1 ≤ argvSize then main argv1 argv2 else none

theorem boundedMain_eq_some {argv1 argv2 : Str} {s : State} (h : boundedMain argv1 argv2 = some s) :
    (argv1.length < argvSize ∧ argv2.length < argvSize) ∧ main argv1 argv2 = some s := by
  unfold boundedMain at h
  split at h
  · rename_i hfits
    exact ⟨hfits, h⟩
  · cases h

theorem handle_eq_some {s s' : State} {sig : SigNo} (h : s.handle sig = some s') :
    (s.waits = true ∧ sig ∈ s.pending ∧ ∀ l, .caller (some sig) l ∉ s.stack) ∧ ∃ dir, s.shm sig = some dir ∧
      s' = { s with
        pathArgv1 := if sig = .usr2 then dir else s.pathArgv1
        pathArgv2 := if sig = .usr1 then dir else s.pathArgv2
        issued := []
        shm := Function.update s.shm sig none
        pending := s.pending.filter (fun p => p ≠ sig)
        stack := .scan (if sig = .usr2 then dir else s.pathArgv1) (if sig = .usr1 then dir else s.pathArgv2) .start ::
          .caller (some sig) false :: s.stack } := by
  unfold State.handle at h
  split at h
  · rename_i hcan
    obtain ⟨dir, hdir, rfl⟩ := Option.map_eq_some_iff.1 h
    exact ⟨hcan, dir, hdir, rfl⟩
  · cases h

theorem main_eq_some {argv1 argv2 : Str} {s : State} (h : main argv1 argv2 = some s) :
    argv1 ≠ argv2 ∧ s = ⟨argv1, argv2, fun _ => none, fun _ => none, [], fun _ => none, [],
      [.scan argv1 argv2 .start, .caller none false]⟩ := by
  unfold main at h
  split at h
  · cases h
  · rename_i hne
    exact ⟨hne, (Option.some.inj h).symm⟩

end UnixTasks.Daemon
