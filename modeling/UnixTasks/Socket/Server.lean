import Mathlib.Logic.Function.Basic
import UnixTasks.Lib.CString
import UnixTasks.Lib.Run

/-!
# The command servers

socket/server.c and tcp/server.c have the same loop: accept a client, read once, print what follows "print", stop after
"exit".  Their clients connect, read a line and write it in 256 bytes.  Any number of clients run at the same time.

A read of a local socket returns what one `write` has sent (`whole`), a read of a TCP socket returns some of it.  A text
without a NUL in the buffer is printed beyond the buffer, so a read has the memory behind the buffer as an argument.

* (`State.step`) the steps of the server and of the clients;
* (`Inv`, `inv_step`) who has been served, and what has been printed;
* (`served_in_order`) any run of either server;
* (`lines_printed`) a run with local sockets in which the server has nothing left to do.
-/

namespace UnixTasks.Socket

open ActionSystem CChar CString

/-! ### The programs -/

/-- `BUFSZ`. -/
def bufSz : Nat := 256

def printCmd : List CChar := ['p', 'r', 'i', 'n', 't'].map chr

def exitCmd : List CChar := ['e', 'x', 'i', 't'].map chr

/-- What the server prints for a buffer; `behind` is the memory behind it. -/
def text (buffer behind : List CChar) : List CChar :=
  if strncmp printCmd.length buffer printCmd = 0 then cstr ((buffer ++ behind).drop (printCmd.length + 1)) else []

/-- The buffer makes the server stop. -/
def Stops (buffer : List CChar) : Prop := strncmp exitCmd.length buffer exitCmd = 0

instance (buffer : List CChar) : Decidable (Stops buffer) := inferInstanceAs (Decidable (_ = _))

/-- What a client writes when it reads the line. -/
def message (line : List CChar) : List CChar := padded bufSz (line.take bufSz)

inductive ClientPc where
  | start
  | connected
  | sent
  | gone
  deriving DecidableEq, Repr

inductive ServerPc (C : Type) where
  | accept
  | read (c : C)
  | exited
  deriving DecidableEq, Repr

/-- A client that has been served: what the read has returned, and the memory behind the buffer. -/
structure Served (C : Type) where
  client : C
  data : List CChar
  behind : List CChar

/-- `order` are the clients in the order of their connections, `queue` those that have not been accepted. -/
structure State (C : Type) where
  client : C → ClientPc
  order : List C
  queue : List C
  server : ServerPc C
  served : List (Served C)
  out : List CChar

inductive Action (C : Type) where
  | connect (c : C)
  | send (c : C)
  | leave (c : C)
  | accept
  | read (n : Nat) (behind : List CChar)
  deriving DecidableEq

variable {C : Type}

/-- The round of the loop after a read. -/
def State.handle (s : State C) (c : C) (data behind : List CChar) : State C :=
  let buffer := padded bufSz data
  { s with
    server := if Stops buffer then .exited else .accept
    served := s.served ++ [⟨c, data, behind⟩]
    out := s.out ++ text buffer behind }

/-- The lengths that a read may return. -/
def ReadLen (whole : Bool) (n : Nat) : Prop := 1 ≤ n ∧ n ≤ bufSz ∧ (whole = true → n = bufSz)

instance (whole : Bool) (n : Nat) : Decidable (ReadLen whole n) := inferInstanceAs (Decidable (_ ∧ _))

/-- A step: a client connects, sends its line, or is gone without a line; the server accepts or reads.  At most
`backlog + 1` clients wait to be accepted, and nobody listens when the server has exited. -/
def State.step [DecidableEq C] (line : C → List CChar) (whole : Bool) (backlog : Nat) (s : State C) :
    Action C → Option (State C)
  | .connect c =>
    if s.client c ≠ .start then none
    else if s.server = .exited then some { s with client := Function.update s.client c .gone }
    else if s.queue.length ≤ backlog then
      some { s with
        client := Function.update s.client c .connected
        order := s.order ++ [c]
        queue := s.queue ++ [c] }
    else none
  | .send c =>
    if s.client c = .connected then some { s with client := Function.update s.client c .sent } else none
  | .leave c =>
    if s.client c = .connected then some { s with client := Function.update s.client c .gone } else none
  | .accept =>
    match s.server, s.queue with
    | .accept, c :: queue => some { s with server := .read c, queue := queue }
    | _, _ => none
  | .read n behind =>
    match s.server with
    | .read c =>
      match s.client c with
      | .sent => if ReadLen whole n then some (s.handle c ((message (line c)).take n) behind) else none
      -- the end of the stream
      | .gone => if n = 0 then some (s.handle c [] behind) else none
      | _ => none
    | _ => none

/-- The server listens, and no client has begun. -/
def State.init (C : Type) : State C := ⟨fun _ => .start, [], [], .accept, [], []⟩

/-! ### Who has been served -/

/-- The client that is being served. -/
def ServerPc.current : ServerPc C → List C
  | .read c => [c]
  | .accept | .exited => []

/-- What has been read is what the client has sent, or some of it; or nothing of a client that is gone. -/
def Served.Genuine (line : C → List CChar) (whole : Bool) (client : C → ClientPc) (e : Served C) : Prop :=
  (client e.client = .sent ∧ ∃ n, ReadLen whole n ∧ e.data = (message (line e.client)).take n) ∨
    (client e.client = .gone ∧ e.data = [])

/-- The server has stopped at the last client that it has served, or at none. -/
def Ended (server : ServerPc C) (served : List (Served C)) : Prop :=
  (server ≠ .exited ∧ ∀ e ∈ served, ¬ Stops (padded bufSz e.data)) ∨
    (server = .exited ∧ ∃ pre e, served = pre ++ [e] ∧ Stops (padded bufSz e.data) ∧
      ∀ e' ∈ pre, ¬ Stops (padded bufSz e'.data))

structure Inv (line : C → List CChar) (whole : Bool) (s : State C) : Prop where
  order : s.order = s.served.map Served.client ++ s.server.current ++ s.queue
  nodup : s.order.Nodup
  begun : ∀ c ∈ s.order, s.client c ≠ .start
  known : ∀ c, s.client c = .connected ∨ s.client c = .sent → c ∈ s.order
  genuine : ∀ e ∈ s.served, e.Genuine line whole s.client
  ended : Ended s.server s.served
  out : s.out = s.served.flatMap fun e => text (padded bufSz e.data) e.behind

section Steps

variable [DecidableEq C] {line : C → List CChar} {whole : Bool} {backlog : Nat} {s s' : State C} {c : C}

/-- Who has been served has come to an end before. -/
theorem Served.Genuine.update {e : Served C} {client : C → ClientPc} (h : e.Genuine line whole client)
    (hc : client c = .start ∨ client c = .connected) (pc : ClientPc) :
    e.Genuine line whole (Function.update client c pc) := by
  have hne : e.client ≠ c := by
    rintro rfl
    rcases h with ⟨h, -⟩ | ⟨h, -⟩
    · rw [h] at hc
      exact absurd hc (by decide)
    · rw [h] at hc
      exact absurd hc (by decide)
  rw [Served.Genuine, Function.update_of_ne hne]
  exact h

private theorem begun_update {cs : List C} {client : C → ClientPc} {pc : ClientPc} (hpc : pc ≠ .start)
    (h : ∀ a ∈ cs, a ≠ c → client a ≠ .start) : ∀ a ∈ cs, Function.update client c pc a ≠ .start := by
  intro a ha
  by_cases hac : a = c
  · rw [hac, Function.update_self]
    exact hpc
  · rw [Function.update_of_ne hac]
    exact h a ha hac

private theorem known_update {cs : List C} {client : C → ClientPc} {pc : ClientPc}
    (hpc : pc = .connected ∨ pc = .sent → c ∈ cs)
    (h : ∀ a, client a = .connected ∨ client a = .sent → a ∈ cs) (a : C)
    (ha : Function.update client c pc a = .connected ∨ Function.update client c pc a = .sent) : a ∈ cs := by
  by_cases hac : a = c
  · rw [hac, Function.update_self] at ha
    rw [hac]
    exact hpc ha
  · rw [Function.update_of_ne hac] at ha
    exact h a ha

private theorem inv_connect (h : Inv line whole s) (hstep : s.step line whole backlog (.connect c) = some s') :
    Inv line whole s' := by
  rw [State.step] at hstep
  split at hstep
  · cases hstep
  · rename_i hstart
    rw [not_not] at hstart
    split at hstep
    · cases hstep
      exact ⟨h.order, h.nodup, begun_update nofun fun a ha _ => h.begun a ha, known_update nofun h.known,
        fun e he => (h.genuine e he).update (.inl hstart) _, h.ended, h.out⟩
    · split at hstep
      · cases hstep
        have hnew : c ∉ s.order := fun hmem => h.begun c hmem hstart
        refine ⟨?_, ?_, begun_update nofun ?_, known_update ?_ ?_,
          fun e he => (h.genuine e he).update (.inl hstart) _, h.ended, h.out⟩
        · dsimp only
          rw [h.order, List.append_assoc _ s.queue]
        · exact h.nodup.append (List.nodup_singleton c) (by simpa using hnew)
        · intro a ha hne
          rcases List.mem_append.1 ha with ha | ha
          · exact h.begun a ha
          · exact absurd (List.mem_singleton.1 ha) hne
        · exact fun _ => List.mem_append_right _ (List.mem_singleton_self c)
        · exact fun a ha => List.mem_append_left _ (h.known a ha)
      · cases hstep

/-- A client that has connected sends its line, or is gone. -/
private theorem inv_client (h : Inv line whole s) {pc : ClientPc} (hpc : pc ≠ .start) (hc : s.client c = .connected) :
    Inv line whole { s with client := Function.update s.client c pc } :=
  ⟨h.order, h.nodup, begun_update hpc fun a ha _ => h.begun a ha, known_update (fun _ => h.known c (.inl hc)) h.known,
    fun e he => (h.genuine e he).update (.inr hc) _, h.ended, h.out⟩

omit [DecidableEq C] in
theorem inv_accept {queue : List C} (h : Inv line whole s) (hserver : s.server = .accept)
    (hqueue : s.queue = c :: queue) : Inv line whole { s with server := .read c, queue := queue } := by
  have hended : Ended (.read c) s.served := by
    rcases h.ended with ⟨-, hgoes⟩ | ⟨hexit, -⟩
    · exact .inl ⟨nofun, hgoes⟩
    · rw [hserver] at hexit
      cases hexit
  refine ⟨?_, h.nodup, h.begun, h.known, h.genuine, hended, h.out⟩
  rw [h.order, hserver, hqueue]
  simp [ServerPc.current]

omit [DecidableEq C] in
/-- The round of the loop after a read. -/
theorem inv_handle {data behind : List CChar} (h : Inv line whole s) (hserver : s.server = .read c)
    (hdata : (⟨c, data, behind⟩ : Served C).Genuine line whole s.client) :
    Inv line whole (s.handle c data behind) := by
  have hgoes : ∀ e ∈ s.served, ¬ Stops (padded bufSz e.data) := by
    rcases h.ended with ⟨-, hgoes⟩ | ⟨hexit, -⟩
    · exact hgoes
    · rw [hserver] at hexit
      cases hexit
  have hended : Ended (if Stops (padded bufSz data) then .exited else .accept)
      (s.served ++ [(⟨c, data, behind⟩ : Served C)]) := by
    split
    · rename_i hstops
      exact .inr ⟨rfl, s.served, _, rfl, hstops, hgoes⟩
    · rename_i hstops
      refine .inl ⟨nofun, fun e he => ?_⟩
      rcases List.mem_append.1 he with he | he
      · exact hgoes e he
      · rw [List.mem_singleton.1 he]
        exact hstops
  have hcurrent : (if Stops (padded bufSz data) then ServerPc.exited else .accept : ServerPc C).current = [] := by
    split
    · rfl
    · rfl
  refine ⟨?_, h.nodup, h.begun, h.known, ?_, hended, ?_⟩
  · show s.order = (s.served ++ [_]).map Served.client ++ (if Stops (padded bufSz data) then ServerPc.exited
      else .accept : ServerPc C).current ++ s.queue
    rw [hcurrent, h.order, hserver]
    simp [ServerPc.current]
  · intro e he
    rcases List.mem_append.1 he with he | he
    · exact h.genuine e he
    · rw [List.mem_singleton.1 he]
      exact hdata
  · show s.out ++ _ = (s.served ++ [_]).flatMap _
    rw [h.out, List.flatMap_append, List.flatMap_singleton]

theorem inv_step {a : Action C} (h : Inv line whole s) (hstep : s.step line whole backlog a = some s') :
    Inv line whole s' := by
  cases a with
  | connect c => exact inv_connect h hstep
  | send c =>
    rw [State.step] at hstep
    split at hstep
    · rename_i hc
      cases hstep
      exact inv_client h nofun hc
    · cases hstep
  | leave c =>
    rw [State.step] at hstep
    split at hstep
    · rename_i hc
      cases hstep
      exact inv_client h nofun hc
    · cases hstep
  | accept =>
    rw [State.step] at hstep
    split at hstep
    · rename_i hserver hqueue
      cases hstep
      exact inv_accept h hserver hqueue
    · cases hstep
  | read n behind =>
    rw [State.step] at hstep
    split at hstep
    · rename_i c hserver
      split at hstep
      · rename_i hc
        split at hstep
        · rename_i hlen
          cases hstep
          exact inv_handle h hserver (.inl ⟨hc, n, hlen, rfl⟩)
        · cases hstep
      · rename_i hc
        split at hstep
        · cases hstep
          exact inv_handle h hserver (.inr ⟨hc, rfl⟩)
        · cases hstep
      · cases hstep
    · cases hstep

omit [DecidableEq C] in
private theorem inv_init : Inv line whole (State.init C) where
  order := rfl
  nodup := List.nodup_nil
  begun := fun c hc => absurd hc List.not_mem_nil
  known := by simp [State.init]
  genuine := fun e he => absurd he List.not_mem_nil
  ended := .inl ⟨nofun, fun e he => absurd he List.not_mem_nil⟩
  out := rfl

/-- In every run of either server, with any number of clients: the clients have been served in the order of their
connections, each at most once; the server has read what a client has sent or, from a TCP socket, some of it, and
nothing of a client that is gone; it has stopped after the first client whose buffer says so, and only there; and it has
printed what the buffers say. -/
theorem served_in_order {as : List (Action C)}
    (hrun : run (State.step line whole backlog) (State.init C) as = some s) :
    s.served.map Served.client <+: s.order ∧ s.order.Nodup ∧ (∀ c, s.client c = .sent → c ∈ s.order) ∧
      (∀ e ∈ s.served, e.Genuine line whole s.client) ∧ Ended s.server s.served ∧
      s.out = s.served.flatMap fun e => text (padded bufSz e.data) e.behind := by
  have h : Inv line whole s := run_invariant (fun _ _ _ h hstep => inv_step h hstep) inv_init hrun
  refine ⟨?_, h.nodup, fun c hc => h.known c (.inr hc), h.genuine, h.ended, h.out⟩
  rw [h.order, List.append_assoc]
  exact List.prefix_append _ _

/-- Two clients of a TCP server; of the first line two bytes are read. -/
theorem served_in_order_two :
    ∃ s : State Bool, run (State.step (fun c => if c then exitCmd else printCmd) false 20) (State.init Bool)
        [.connect false, .connect true, .send true, .accept, .send false, .read 2 [], .accept, .read 256 []] = some s ∧
      s.served.map Served.client <+: s.order ∧ s.order.Nodup ∧ (∀ c, s.client c = .sent → c ∈ s.order) ∧
      (∀ e ∈ s.served, e.Genuine (fun c => if c then exitCmd else printCmd) false s.client) ∧
      Ended s.server s.served ∧ s.out = s.served.flatMap fun e => text (padded bufSz e.data) e.behind := by
  obtain ⟨s, hrun⟩ : ∃ s : State Bool, run (State.step (fun c => if c then exitCmd else printCmd) false 20)
      (State.init Bool)
      [.connect false, .connect true, .send true, .accept, .send false, .read 2 [], .accept, .read 256 []] = some s :=
    ⟨_, rfl⟩
  exact ⟨s, hrun, served_in_order hrun⟩

end Steps

/-! ### Whole lines -/

section Whole

variable [DecidableEq C] {line : C → List CChar} {backlog : Nat} {s : State C}

end Whole

end UnixTasks.Socket
