import UnixTasks.Udp.Dfke
import UnixTasks.Udp.Ending

/-!
# Clients, master and children of the UDP server

The whole of `client.c`, `udp.c` and `server.c` as one system: any number of clients, the master, and a child for each
client that the master has forked one for.

A client sends its id, waits for the public key of its child, answers with its own, and then sends a datagram for every
line that it reads, until a line starts with "quit" or SIGINT comes.  A child sends its public key to the client that
was heard last when it was forked, takes the first buffer of its pipe for the key of the client, and every other one for
a command.

The network between the processes of one machine is a queue for the master and one for each client.  All system calls
succeed.  The answers of the children to commands are not followed here.
-/

namespace UnixTasks.Udp

open CChar CString

/-! ### The key -/

namespace Dfke

/-- `static const long double g = 23, p = 256, a = 4, b = 11`, in both programs. -/
def g : Nat := 23

def a : Nat := 4

def b : Nat := 11

def p : Int := 256

end Dfke

/-- The public keys, and the key that they lead to. -/
def keyA : CChar := genOpenKeyServer Dfke.g Dfke.a Dfke.p

def keyB : CChar := genOpenKeyClient Dfke.g Dfke.b Dfke.p

def sessionKey : CChar := genCloseKeyServer keyB Dfke.a Dfke.p

/-! ### The parties -/

/-- Where a client is: before `first_connect`, in its `recvfrom`, in the loop of `main`, or it has exited. -/
inductive Stage where
  | start
  | waiting
  | ready
  | left
  deriving DecidableEq, Repr

/-- What a client sends after its key: a line, or the "quit" of the handler of SIGINT. -/
inductive Text where
  | line (line : List CChar)
  | interrupt
  deriving DecidableEq, Repr

structure Client where
  stage : Stage
  K : CChar
  /-- What it has sent after its key. -/
  texts : List Text

/-- A child of the master. -/
structure ChildProcess (ι : Type) where
  /-- The `name` of its `child_handle`. -/
  name : Option ι
  greeted : Bool
  state : Child
  K : CChar
  /-- How many buffers it has read from its pipe. -/
  reads : Nat
  /-- The strings that `execution` has got. -/
  commands : List (List CChar)

/-- `ι` are the clients. -/
structure System (ι : Type) where
  client : ι → Client
  /-- The datagrams on the way to the master, with their senders. -/
  net : List (Option ι × List CChar)
  master : Master
  /-- The child that reads the pipe `p`. -/
  child : Nat → ChildProcess ι
  /-- The datagrams on the way to each client. -/
  answers : ι → List (List CChar)

inductive Action (ι : Type) where
  /-- `first_connect` up to its `recvfrom`, and from there on. -/
  | connect (i : ι)
  | key (i : ι)
  /-- `sender`, when `read` has returned `line`. -/
  | line (i : ι) (line beyond : List CChar)
  | interrupt (i : ι)
  /-- Somebody looks for servers. -/
  | hello (tail : List CChar)
  /-- A round of the master. -/
  | master
  /-- The child of the pipe `p` sends its key, or reads a buffer. -/
  | greet (p : Nat)
  | read (p : Nat) (bashWork : Bool) (beyond : List CChar)

/-- A child after it has read `data`. -/
def ChildProcess.read {ι : Type} (c : ChildProcess ι) (bashWork : Bool) (data beyond : List CChar) : ChildProcess ι :=
  { c with
    state := c.state.read c.K bashWork data
    K := if c.state = .key then genCloseKeyServer (data.headD 0) Dfke.a Dfke.p else c.K
    reads := c.reads + 1
    commands := if c.state = .commands then c.commands ++ [childCommand c.K data beyond] else c.commands }

def ChildProcess.new {ι : Type} (name : Option ι) : ChildProcess ι := ⟨name, false, .key, 0, 0, []⟩

def System.start {ι : Type} : System ι :=
  ⟨fun _ => ⟨.start, 0, []⟩, [], .start, fun _ => .new none, fun _ => []⟩

variable {ι : Type} [DecidableEq ι]

/-- The master has received a datagram; the child of a pipe that it makes knows the sender. -/
def System.round (s : System ι) (name : Option ι) (datagram : List CChar) : Option (System ι) :=
  (s.master.step (.ok, datagram)).map fun m => { s with
    master := m
    child := if m.pipes = s.master.pipes then s.child else Function.update s.child s.master.pipes (.new name) }

/-- A client sends a datagram with a text and goes on, or exits. -/
def System.send (s : System ι) (i : ι) (text : Text) (datagram : List CChar) (exits : Bool) : System ι :=
  { s with
    client := Function.update s.client i { s.client i with
      stage := if exits then .left else .ready
      texts := (s.client i).texts ++ [text] }
    net := s.net ++ [(some i, datagram)] }

def System.step (id : ι → List CChar) (s : System ι) : Action ι → Option (System ι)
  | .connect i =>
    if (s.client i).stage = .start then
      some { s with
        client := Function.update s.client i { s.client i with stage := .waiting }
        net := s.net ++ [(some i, cstr (snprintf2 (zeros bufSz) bufSz connect (id i)))] }
    else none
  | .key i =>
    match (s.client i).stage, s.answers i with
    | .waiting, data :: rest =>
      some { s with
        client := Function.update s.client i { s.client i with
          stage := .ready
          K := genCloseKeyClient (data.headD 0) Dfke.b Dfke.p }
        net := s.net ++ [(some i, keyDatagram (id i) keyB)]
        answers := Function.update s.answers i rest }
    | _, _ => none
  | .line i line beyond =>
    if (s.client i).stage = .ready then
      match sender (s.client i).K (id i) line beyond with
      -- `broadcast_client` has sockets of its own
      | .broadcast => some s
      | .sendto datagram quits => some (s.send i (.line line) datagram quits)
    else none
  | .interrupt i =>
    if (s.client i).stage = .ready then some (s.send i .interrupt (interrupted (id i)) true) else none
  | .hello tail => some { s with net := s.net ++ [(none, Udp.hello ++ tail)] }
  | .master =>
    match s.net with
    | (name, datagram) :: rest => ({ s with net := rest } : System ι).round name datagram
    | [] => none
  | .greet p =>
    if p < s.master.pipes ∧ (s.child p).greeted = false then
      some { s with
        child := Function.update s.child p { s.child p with greeted := true }
        answers := match (s.child p).name with
          | some i => Function.update s.answers i (s.answers i ++ [crypto 0 (padded bufSz [keyA])])
          | none => s.answers }
    else none
  | .read p bashWork beyond =>
    if p < s.master.pipes ∧ (s.child p).greeted = true ∧ (s.child p).state ≠ .exited then
      match (writesTo p s.master.log)[(s.child p).reads]? with
      | some data => some { s with child := Function.update s.child p ((s.child p).read bashWork data beyond) }
      | none => none
    else none

/-- A line of at most 245 characters without the key; and "!hello!" is a string. -/
def Action.Plain : Action ι → Prop
  | .line _ l _ => l.length ≤ 245 ∧ 0 ∉ l ∧ sessionKey ∉ l
  | .hello tail => NulTail tail
  | _ => True

instance : ∀ x : Action ι, Decidable x.Plain
  | .line _ _ _ => inferInstanceAs (Decidable (_ ∧ _ ∧ _))
  | .hello _ => inferInstanceAs (Decidable (NulTail _))
  | .connect _ | .key _ | .interrupt _ | .master | .greet _ | .read _ _ _ => inferInstanceAs (Decidable True)

theorem genCloseKeyClient_keyA : genCloseKeyClient keyA Dfke.b Dfke.p = sessionKey := by decide

private theorem sessionKey_ne_nul : sessionKey ≠ 0 := by decide

/-! ### What the clients send -/

/-- The datagram of a text has this payload. -/
def Text.Carried : Text → List CChar → Prop
  | .line l, payload => (l.length ≤ 245 ∧ 0 ∉ l ∧ sessionKey ∉ l) ∧ NotBroadcast sessionKey l ∧
    ∃ beyond, payload = linePayload sessionKey l beyond
  | .interrupt, payload => payload = quitCmd

/-- What the child gets for a text: the line itself. -/
def Text.Arrives : Text → List CChar → Prop
  | .line l, command => command = l
  | .interrupt, command => ∃ beyond, command = childCommand sessionKey (padded bufSz quitCmd) beyond

section Payloads

variable {id line beyond payload : List CChar} {text : Text}

theorem typed_of_le (hline : line.length ≤ 245) : typed line = padded bufSz line := by
  rw [typed, List.take_of_length_le (by unfold bufSz; omega)]

theorem Text.Carried.nul_notMem (h : text.Carried payload) : 0 ∉ payload := by
  cases text with
  | line line =>
    obtain ⟨-, -, beyond, rfl⟩ := h
    exact nul_notMem_linePayload
  | interrupt =>
    rw [show payload = quitCmd from h]
    decide

theorem Text.Carried.length_lt (h : text.Carried payload) : payload.length < bufSz := by
  cases text with
  | line line =>
    obtain ⟨-, -, beyond, rfl⟩ := h
    exact Nat.lt_of_le_of_lt length_linePayload_le (by decide)
  | interrupt =>
    rw [show payload = quitCmd from h]
    decide

/-- Without the key byte nothing cuts the text off before its 246 characters. -/
theorem Text.Carried.ne_quit (h : text.Carried payload) : payload ≠ quit := by
  cases text with
  | line line =>
    obtain ⟨⟨hline, hnul, hK⟩, -, beyond, rfl⟩ := h
    have hpad : 0 ∉ (padded bufSz line).map (· ^^^ sessionKey) := by
      rw [map_xor_padded, List.mem_append, not_or, nul_mem_map_xor]
      exact ⟨hK, fun h => sessionKey_ne_nul (List.eq_of_mem_replicate h).symm⟩
    have hlen : ((padded bufSz line).map (· ^^^ sessionKey)).length = bufSz := by
      rw [List.length_map, length_padded (by unfold bufSz; omega)]
    intro hq
    have hlength := congrArg List.length hq
    rw [linePayload, typed_of_le hline, crypto_eq_map (length_padded (by unfold bufSz; omega)), cstr_append hpad,
      List.length_take, List.length_append, hlen] at hlength
    have hquit : quit.length = 5 := rfl
    unfold bufSz idSz at hlength
    omega
  | interrupt =>
    rw [show payload = quitCmd from h]
    decide

theorem Text.Carried.arrives (h : text.Carried payload) (beyond' : List CChar) :
    text.Arrives (childCommand sessionKey (padded bufSz payload) beyond') := by
  cases text with
  | line line =>
    obtain ⟨⟨hline, hnul, hK⟩, hsend, beyond, rfl⟩ := h
    have hid : (List.replicate 9 (chr '1')).length = idSz - 1 := by decide
    have hidnul : 0 ∉ List.replicate 9 (chr '1') := by decide
    have hlen : line.length ≤ bufSz := by
      unfold bufSz
      omega
    have harrives := transmit_of_notMem beyond beyond' hid hidnul hline hnul hK hsend
    rw [transmit_eq beyond beyond' hid hidnul hlen hsend, Option.some.injEq,
      ← crypto_eq_map (length_padded hlen), ← typed_of_le hline] at harrives
    exact harrives
  | interrupt =>
    exact ⟨beyond', by rw [show payload = quitCmd from h]⟩

/-- The client exits exactly where the child does. -/
theorem Text.Carried.quits_iff (h : text.Carried payload) :
    Quits (crypto sessionKey (padded bufSz payload)) ↔ ∃ line, text = .line line ∧ Quits (typed line) := by
  cases text with
  | line line =>
    obtain ⟨-, -, beyond, rfl⟩ := h
    rw [quits_linePayload_iff, and_iff_left (by decide)]
    simp
  | interrupt =>
    rw [show payload = quitCmd from h]
    exact iff_of_false (by decide) (by simp)

/-- The datagrams are messages. -/
theorem connect_datagram (hid : id.length = idSz - 1) (hnul : 0 ∉ id) :
    cstr (snprintf2 (zeros bufSz) bufSz connect id) = (Msg.connect id []).datagram := by
  have hcon : 0 ∉ connect := by decide
  have hlen : (connect ++ id).length ≤ bufSz - 1 := by
    rw [List.length_append, hid]
    decide
  have hboth : 0 ∉ connect ++ id := by
    rw [List.mem_append, not_or]
    exact ⟨hcon, hnul⟩
  rw [snprintf2, cstr_of_notMem hcon, cstr_of_notMem hnul, List.take_of_length_le hlen, cstr_append_nul hboth,
    Msg.datagram, List.append_nil]

theorem sender_datagram {K : CChar} {datagram : List CChar} {quits : Bool} (hid : id.length = idSz - 1) (hnul : 0 ∉ id)
    (h : sender K id line beyond = .sendto datagram quits) :
    ∃ tail, NulTail tail ∧ datagram = (Msg.data id (linePayload K line beyond) tail).datagram := by
  simp only [sender] at h
  split at h
  · cases h
  · obtain ⟨rfl, -⟩ := Sender.sendto.inj h
    exact snprintf2_take hid hnul _ _

theorem snprintf2_bufSz (hid : id.length = idSz - 1) (hnul : 0 ∉ id) (s : List CChar) :
    ∃ tail, NulTail tail ∧ snprintf2 (zeros bufSz) bufSz id s =
      (Msg.data id ((cstr s).take (bufSz - idSz)) tail).datagram := by
  obtain ⟨tail, htail, heq⟩ := snprintf2_take hid hnul bufSz s
  refine ⟨tail, htail, ?_⟩
  rw [← List.take_of_length_le (l := snprintf2 (zeros bufSz) bufSz id s) (i := bufSz), heq, Msg.datagram]
  rw [length_snprintf2 (by decide) (by simp [zeros])]
  simp [zeros]

end Payloads

end UnixTasks.Udp
