import UnixTasks.Lib.Run
import UnixTasks.Udp.Child

/-!
# server.c, udp.c, tcp.c: who does what in the server

The main loop calls `server_handler` again and again, whatever it returns.  Within this call the server forks the
child of a client, and within the call of `child_handle` the shell.  Every function returns -1 to its caller when a call
of its own has failed, in the forked processes as well.

A process is at a system call, or at a test of the data, and has the calls below it that have not returned.  How a
system call ends and what the data are is part of the step.  Signals are left out.
-/

namespace UnixTasks.Server

open ActionSystem

/-- `choose_mode`. -/
inductive Transport where
  | udp
  | tcp
  deriving DecidableEq, Repr

/-- Where a process is. -/
inductive Place where
  /-- udp.c: `server_handler`, `broadcast`, `com_connect`, `master_handler`. -/
  | recvfrom
  | broadcast
  | connectId
  | pipe
  | forkUdp
  | decypher
  | find
  | write
  | closeRead
  | closeWrite
  /-- tcp.c: `server_handler`. -/
  | accept
  | readB
  | writeA
  | forkTcp
  /-- `child_handle`, of which tcp.c has only the loop, and `send_info`. -/
  | socket
  | readKey
  | readChildBuf
  | sendInfo
  /-- server.c: `execution` and `read_bash`; `testFd` is the test of what `shell` has returned. -/
  | cmpComm
  | writeBash
  | testFd
  | snprintf
  | poll
  | readBash
  /-- server.c: `shell`. -/
  | openPtmx
  | grantpt
  | unlockpt
  | ptsname
  | openPts
  | tcsetattr
  | forkShell
  | dup2Stdin
  | dup2Stdout
  | dup2Stderr
  | setsid
  | execl
  deriving DecidableEq, Repr

/-- A call that has not returned. -/
inductive Site where
  /-- `main` calls `server_handler`. -/
  | main
  /-- `server_handler` of udp.c calls `broadcast`, `com_connect` or `master_handler`. -/
  | serverHandler
  /-- The child, in `com_connect` or in `server_handler` of tcp.c, calls `child_handle`. -/
  | child
  /-- `child_handle` of udp.c sends its part of the key. -/
  | sendKey
  /-- The loop of `child_handle` calls `execution`. -/
  | execution
  /-- `execution` calls `shell`, `read_bash` or, for the answer to an unknown command, `send_info`. -/
  | shell
  | readBash
  | answer
  /-- `read_bash` calls `send_info`. -/
  | relay
  deriving DecidableEq, Repr

/-- How a system call ends, or which branch a test takes. -/
inductive Outcome where
  | ok
  | fail
  /-- What `recvfrom` has brought. -/
  | hello
  | connect
  | message
  /-- The message that has been written is "quit\n". -/
  | quit
  /-- The result of `cmp_comm`. -/
  | command (cmd : Udp.Cmd)
  /-- The result of `poll`: nothing, `POLLIN`, or anything else. -/
  | idle
  | readable
  | broken
  deriving DecidableEq, Repr

/-- How a process goes on. -/
inductive Move where
  | go (place : Place)
  /-- A call of a function that begins at `place`. -/
  | call (place : Place) (site : Site)
  /-- A return; `ok` is false for -1. -/
  | ret (ok : Bool)
  /-- `exit`, or `execl` has succeeded. -/
  | exit
  deriving DecidableEq, Repr

/-- A call after which the function goes on, or returns -1. -/
def checked (next : Move) : Outcome → Option (Move × Option Move)
  | .ok => some (next, none)
  | .fail => some (.ret false, none)
  | _ => none

/-- A call whose failure is only logged. -/
def logged (next : Move) : Outcome → Option (Move × Option Move)
  | .ok | .fail => some (next, none)
  | _ => none

/-- How a process goes on from a place, and how the process that it has forked there begins; `none` when the outcome is
not one of this place. -/
def control : Place → Outcome → Option (Move × Option Move)
  | .recvfrom, .hello => some (.call .broadcast .serverHandler, none)
  | .recvfrom, .connect => some (.call .connectId .serverHandler, none)
  | .recvfrom, .message => some (.call .decypher .serverHandler, none)
  | .recvfrom, .fail => some (.ret false, none)
  | .recvfrom, _ => none
  | .broadcast, o => checked (.ret true) o
  | .connectId, o => checked (.go .pipe) o
  | .pipe, o => checked (.go .forkUdp) o
  | .forkUdp, .ok => some (.ret true, some (.call .socket .child))
  | .forkUdp, .fail => some (.ret false, none)
  | .forkUdp, _ => none
  | .decypher, o => checked (.go .find) o
  | .find, o => checked (.go .write) o
  | .write, .quit => some (.go .closeRead, none)
  | .write, o => checked (.ret true) o
  | .closeRead, o => checked (.go .closeWrite) o
  | .closeWrite, o => checked (.ret true) o
  | .accept, o => checked (.go .readB) o
  | .readB, o => checked (.go .writeA) o
  | .writeA, o => checked (.go .forkTcp) o
  | .forkTcp, .ok => some (.ret true, some (.call .readChildBuf .child))
  | .forkTcp, .fail => some (.ret true, none)
  | .forkTcp, _ => none
  | .socket, o => checked (.call .sendInfo .sendKey) o
  | .readKey, o => checked (.go .readChildBuf) o
  | .readChildBuf, o => checked (.call .cmpComm .execution) o
  | .sendInfo, o => checked (.ret true) o
  | .cmpComm, .command .toBash => some (.go .writeBash, none)
  | .cmpComm, .command .quit => some (.exit, none)
  | .cmpComm, .command .shell => some (.call .openPtmx .shell, none)
  | .cmpComm, .command .unrecognized => some (.go .snprintf, none)
  | .cmpComm, _ => none
  | .writeBash, o => checked (.call .poll .readBash) o
  | .testFd, o => checked (.ret true) o
  | .snprintf, o => checked (.call .sendInfo .answer) o
  | .poll, .idle => some (.ret true, none)
  | .poll, .readable => some (.go .readBash, none)
  | .poll, .broken => some (.ret true, none)
  | .poll, _ => none
  | .readBash, o => checked (.call .sendInfo .relay) o
  | .openPtmx, o => checked (.go .grantpt) o
  | .grantpt, o => checked (.go .unlockpt) o
  | .unlockpt, o => checked (.go .ptsname) o
  | .ptsname, o => checked (.go .openPts) o
  | .openPts, o => checked (.go .tcsetattr) o
  | .tcsetattr, o => logged (.go .forkShell) o
  | .forkShell, .ok => some (.ret true, some (.go .dup2Stdin))
  | .forkShell, .fail => some (.ret false, none)
  | .forkShell, _ => none
  | .dup2Stdin, o => checked (.go .dup2Stdout) o
  | .dup2Stdout, o => checked (.go .dup2Stderr) o
  | .dup2Stderr, o => checked (.go .setsid) o
  | .setsid, o => logged (.go .execl) o
  | .execl, o => checked .exit o

/-- The first system call of `server_handler`. -/
def entry : Transport → Place
  | .udp => .recvfrom
  | .tcp => .accept

/-- Where a process is, and what it has not returned from, the innermost call first; no place when it is gone. -/
structure Proc where
  /-- `fork` has created this process. -/
  forked : Bool
  place : Option Place
  sites : List Site
  deriving DecidableEq, Repr

/-- A return to the innermost call: what the callers do with the result, down to the one that goes on. -/
def returns (transport : Transport) (ok : Bool) : List Site → Option Place × List Site
  | [] => (none, [])
  | .main :: sites => (some (entry transport), .main :: sites)
  | .sendKey :: sites => (some .readKey, sites)
  | .execution :: sites => if ok then (some .readChildBuf, sites) else returns transport false sites
  | .shell :: sites => if ok then (some .testFd, sites) else returns transport false sites
  | .relay :: sites => if ok then (some .poll, sites) else returns transport false sites
  | .serverHandler :: sites | .child :: sites | .readBash :: sites | .answer :: sites => returns transport ok sites

def Move.apply (transport : Transport) (sites : List Site) : Move → Option Place × List Site
  | .go place => (some place, sites)
  | .call place site => (some place, site :: sites)
  | .ret ok => returns transport ok sites
  | .exit => (none, [])

/-- A process after a move. -/
def Proc.next (transport : Transport) (p : Proc) (move : Move) : Proc :=
  ⟨p.forked, (move.apply transport p.sites).1, (move.apply transport p.sites).2⟩

/-- The process number `a.1` makes a step whose outcome is `a.2`; a process that it forks is appended. -/
def step (transport : Transport) (procs : List Proc) (a : Nat × Outcome) : Option (List Proc) :=
  procs[a.1]?.bind fun p =>
    p.place.bind fun place =>
      (control place a.2).map fun (move, child) =>
        procs.set a.1 (p.next transport move) ++
          (child.map fun c => { p.next transport c with forked := true }).toList

theorem step_eq_some {transport : Transport} {procs t : List Proc} {a : Nat × Outcome} :
    step transport procs a = some t ↔ ∃ p place move child, procs[a.1]? = some p ∧ p.place = some place ∧
      control place a.2 = some (move, child) ∧ t = procs.set a.1 (p.next transport move) ++
        (child.map fun c => { p.next transport c with forked := true }).toList := by
  unfold step
  simp only [Option.bind_eq_some_iff, Option.map_eq_some_iff, Prod.exists]
  constructor
  · rintro ⟨p, hp, place, hplace, move, child, hc, rfl⟩
    exact ⟨p, place, move, child, hp, hplace, hc, rfl⟩
  · rintro ⟨p, place, move, child, hp, hplace, hc, rfl⟩
    exact ⟨p, hp, place, hplace, move, child, hc, rfl⟩

/-- The server in its first call of `server_handler`. -/
def start (transport : Transport) : List Proc := [⟨false, some (entry transport), [.main]⟩]

/-- Only the original master is at the system call that receives from the listening socket. -/
def OnlyMaster (transport : Transport) (procs : List Proc) : Prop :=
  ∀ p ∈ procs, p.place = some (entry transport) → p.forked = false

end UnixTasks.Server
