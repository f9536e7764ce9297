import UnixTasks.Lib.CString
import UnixTasks.Lib.Run

/-!
# udp.c: the master of the UDP server

The master receives datagrams on one socket.  A client connects with "!connect!" and its id, gets a slot of `mas` and a
pipe to a child process of its own, and from then on the master writes to this pipe what the client sends after its id.
Every system call may fail; how the calls of one round of the main loop end is part of the input of the round.  Pipes
are named in the order in which they are made, so a pipe whose descriptors are reused keeps a name of its own.

The log messages are left out, and so are a round whose `recvfrom` fails, which changes nothing, and what the child
processes do with the pipes.
-/

namespace UnixTasks.Udp

open CChar CString

def bufSz : Nat := 256

def idSz : Nat := 10

def maxClients : Nat := 10000

/-- "!hello!", "!connect!" and "quit\n". -/
def hello : List CChar := ['!', 'h', 'e', 'l', 'l', 'o', '!'].map chr

def connect : List CChar := ['!', 'c', 'o', 'n', 'n', 'e', 'c', 't', '!'].map chr

def quit : List CChar := ['q', 'u', 'i', 't', '\n'].map chr

/-- What the master does to its surroundings. -/
inductive Event where
  /-- `pipe(data_pipe[n])` made the pipe `p` for the client `id`. -/
  | pipe (n : Int) (p : Nat) (id : Int)
  /-- `fork` started the child that reads the pipe of the slot `n`. -/
  | fork (n : Int)
  /-- `write` to the pipe of the slot `n`; the pipe is `none` when the slot never had one. -/
  | write (n : Int) (p : Option Nat) (data : List CChar)
  /-- `close` of the read end or the write end of the pipe of the slot `n`. -/
  | close (n : Int) (p : Option Nat) (readEnd : Bool)
  /-- The answer to a broadcast. -/
  | answer
  deriving DecidableEq, Repr

/-- The variables of `main` that the handlers share, and what the master has done so far. -/
structure Master where
  num : Int
  mas : List Int
  dataPipe : Int → Option Nat
  /-- The name of the next pipe. -/
  pipes : Nat
  log : List Event

/-- Which system calls of a round succeed. -/
structure Calls where
  sendto : Bool
  pipe : Bool
  fork : Bool
  write : Bool
  closeRead : Bool
  closeWrite : Bool
  deriving DecidableEq, Repr

/-- Every call succeeds. -/
def Calls.ok : Calls := ⟨true, true, true, true, true, true⟩

/-- `mas[MAX_CLIENTS] = {0}`. -/
def Master.start : Master := ⟨0, List.replicate maxClients 0, fun _ => none, 0, []⟩

/-- `decypher(buffer, my_ip_str, buffer_without_pid)`, with the contents of the last two: the result is what `atoi`
reads; `none` where `strcpy` leaves its arrays. -/
def decypher (buffer : List CChar) : Option (Int × List CChar × List CChar) :=
  let myIpStr := strncpy (zeros bufSz) buffer (idSz - 1)
  (strcpy (zeros bufSz) (buffer.drop (idSz - 1))).map fun bufferWithoutPid =>
    (atoi myIpStr, myIpStr, bufferWithoutPid)

/-- The loop of `connect_id` from the slot `i` on. -/
def connectIdFrom (i : Nat) (id : Int) : List Int → Int × List Int
  | [] => (-1, [])
  | m :: mas =>
    if m = 0 ∨ m = id then (i, id :: mas)
    else ((connectIdFrom (i + 1) id mas).1, m :: (connectIdFrom (i + 1) id mas).2)

/-- `connect_id(id, mas)`: the slot of the client, or -1, and the array after the call. -/
def connectId (id : Int) (mas : List Int) : Int × List Int := connectIdFrom 0 id mas

/-- The loop of `find` from the slot `i` on. -/
def findFrom (i : Nat) (id : Int) : List Int → Int
  | [] => -1
  | m :: mas => if m = id then i else findFrom (i + 1) id mas

/-- `find(id, mas)`. -/
def find (id : Int) (mas : List Int) : Int := findFrom 0 id mas

/-- `com_connect` after it has read the id, in the process that called it. -/
def openSession (calls : Calls) (id : Int) (s : Master) : Master × Int :=
  let s := { s with num := (connectId id s.mas).1, mas := (connectId id s.mas).2 }
  if s.num < 0 then (s, -1)
  else if calls.pipe = false then (s, -1)
  else
    let s := { s with
      dataPipe := Function.update s.dataPipe s.num (some s.pipes)
      pipes := s.pipes + 1
      log := s.log ++ [.pipe s.num s.pipes id] }
    if calls.fork = false then (s, -1) else ({ s with log := s.log ++ [.fork s.num] }, 0)

/-- `com_connect`: the id is what follows "!connect!". -/
def comConnect (calls : Calls) (buffer : List CChar) (s : Master) : Master × Int :=
  let myIpStr := strncpy (zeros bufSz) (buffer.drop connect.length) idSz
  openSession calls (atoi myIpStr) s

/-- The end of a session: both ends of the pipe are closed and the slot is free again. -/
def closeSession (calls : Calls) (s : Master) : Master × Int :=
  if calls.closeRead = false then (s, -1)
  else
    let s := { s with log := s.log ++ [Event.close s.num (s.dataPipe s.num) true] }
    if calls.closeWrite = false then (s, -1)
    else
      let s := { s with log := s.log ++ [Event.close s.num (s.dataPipe s.num) false] }
      ({ s with mas := s.mas.set s.num.toNat 0 }, 0)

/-- `master_handler` after `decypher`. -/
def deliver (calls : Calls) (id : Int) (bufferWithoutPid : List CChar) (s : Master) : Master × Int :=
  if id = -1 then (s, -1)
  else
    let s := { s with num := find id s.mas }
    if s.num < 0 then (s, -1)
    else if calls.write = false then (s, -1)
    else
      let s := { s with log := s.log ++ [.write s.num (s.dataPipe s.num) bufferWithoutPid] }
      if strncmp (quit.length + 1) bufferWithoutPid quit = 0 then closeSession calls s else (s, 0)

/-- `master_handler`. -/
def masterHandler (calls : Calls) (buffer : List CChar) (s : Master) : Option (Master × Int) :=
  (decypher buffer).map fun (id, _, bufferWithoutPid) => deliver calls id bufferWithoutPid s

/-- What `recvfrom` leaves in the zeroed buffer: a longer datagram is cut. -/
def receive (datagram : List CChar) : List CChar := padded (bufSz + idSz) (datagram.take (bufSz + idSz))

/-- `server_handler` on a datagram; `none` where it leaves its arrays. -/
def serverHandler (calls : Calls) (datagram : List CChar) (s : Master) : Option (Master × Int) :=
  let buffer := receive datagram
  if strcmp buffer hello = 0 then
    some (if calls.sendto = false then (s, -1) else ({ s with log := s.log ++ [.answer] }, 0))
  else if strncmp connect.length buffer connect = 0 then
    some (if (comConnect calls buffer s).2 < 0 then ((comConnect calls buffer s).1, -1)
      else ((comConnect calls buffer s).1, 0))
  else
    (masterHandler calls buffer s).map fun (s, ret) => if ret < 0 then (s, -1) else (s, 0)

/-- One round of the main loop, which goes on whatever `server_handler` returns. -/
def Master.step (s : Master) (round : Calls × List CChar) : Option Master :=
  (serverHandler round.1 round.2 s).map Prod.fst

end UnixTasks.Udp
