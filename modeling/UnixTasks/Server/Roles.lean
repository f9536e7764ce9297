import UnixTasks.Server.Processes

/-!
# Which process is the master

The child of a client and the shell's process report a failure by returning -1, as the master does.  Nothing stops this
return before the main loop, so a forked process that fails goes on as one more master.

* (`InMaster`, `InChild`) where the original process and the forked ones can be;
* (`GivesUp`) the calls of a forked process whose failure is not only logged;
* (`master_move`, `child_move`) the moves of the two kinds of processes, by the tables of their places;
* (`roles_step`) one step keeps the roles apart if and only if it is not such a failure;
* (`roles_iff`) exactly the runs in which only the original process receives from the listening socket.
-/

namespace UnixTasks.Server

open ActionSystem

/-- The calls that have not returned when the original process is in `server_handler`, and where it may be then. -/
def masterPlaces : Transport → List (List Site × List Place)
  | .udp => [([.main], [.recvfrom]),
    ([.serverHandler, .main],
      [.broadcast, .connectId, .pipe, .forkUdp, .decypher, .find, .write, .closeRead, .closeWrite])]
  | .tcp => [([.main], [.accept, .readB, .writeA, .forkTcp])]

/-- The calls that have not returned when a forked process is in `child_handle`. -/
def childSites : Transport → List Site
  | .udp => [.child, .serverHandler, .main]
  | .tcp => [.child, .main]

/-- The calls that have not returned within `child_handle`, and where a forked process may be then. -/
def childPlaces : List (List Site × List Place) :=
  [([], [.socket, .readKey, .readChildBuf]),
    ([.sendKey], [.sendInfo]),
    ([.execution], [.cmpComm, .writeBash, .testFd, .snprintf]),
    ([.answer, .execution], [.sendInfo]),
    ([.readBash, .execution], [.poll, .readBash]),
    ([.relay, .readBash, .execution], [.sendInfo]),
    ([.shell, .execution], [.openPtmx, .grantpt, .unlockpt, .ptsname, .openPts, .tcsetattr, .forkShell, .dup2Stdin,
      .dup2Stdout, .dup2Stderr, .setsid, .execl])]

/-- The original process is never gone. -/
def InMaster (transport : Transport) (place : Option Place) (sites : List Site) : Prop :=
  ∃ row ∈ masterPlaces transport, ∃ p ∈ row.2, place = some p ∧ sites = row.1

def InChild (transport : Transport) (place : Option Place) (sites : List Site) : Prop :=
  ∀ p ∈ place, ∃ row ∈ childPlaces, p ∈ row.2 ∧ sites = row.1 ++ childSites transport

instance (transport : Transport) (place : Option Place) (sites : List Site) :
    Decidable (InMaster transport place sites) := inferInstanceAs (Decidable (∃ row ∈ masterPlaces transport, _))

instance (transport : Transport) (place : Option Place) (sites : List Site) :
    Decidable (InChild transport place sites) := inferInstanceAs (Decidable (∀ p ∈ place, _))

/-- The calls and tests of a forked process that return -1 when they fail. -/
def fallible : List Place :=
  [.socket, .readKey, .readChildBuf, .sendInfo, .writeBash, .testFd, .snprintf, .readBash, .openPtmx, .grantpt,
    .unlockpt, .ptsname, .openPts, .forkShell, .dup2Stdin, .dup2Stdout, .dup2Stderr, .execl]

/-- A failure at this place is returned as -1; only when it sends its part of the key, the child does not look. -/
def GivesUp (place : Place) (sites : List Site) : Prop :=
  place ∈ fallible ∧ ¬ (place = .sendInfo ∧ sites.head? = some .sendKey)

instance (place : Place) (sites : List Site) : Decidable (GivesUp place sites) := inferInstanceAs (Decidable (_ ∧ _))

/-- No forked process fails at a place where it gives up. -/
def NoneGivesUp (procs : List Proc) (a : Nat × Outcome) : Prop :=
  ∀ p ∈ procs[a.1]?, p.forked = true → a.2 = .fail → ∀ place ∈ p.place, ¬ GivesUp place p.sites

/-! ### The moves of one process -/

section Moves

variable {transport : Transport} {place : Place} {sites : List Site} {o : Outcome} {move : Move} {child : Option Move}

/-- The original process stays in `server_handler`, and what it forks begins in `child_handle`. -/
theorem master_move (h : InMaster transport (some place) sites) (hc : control place o = some (move, child)) :
    InMaster transport (move.apply transport sites).1 (move.apply transport sites).2 ∧
      ∀ c ∈ child, InChild transport (c.apply transport sites).1 (c.apply transport sites).2 := by
  have htable : ∀ row ∈ masterPlaces transport, ∀ p ∈ row.2, ∀ r ∈ control p o,
      InMaster transport (r.1.apply transport row.1).1 (r.1.apply transport row.1).2 ∧
        ∀ c ∈ r.2, InChild transport (c.apply transport row.1).1 (c.apply transport row.1).2 := by
    cases o with
    | command cmd => cases transport <;> cases cmd <;> decide
    | _ => cases transport <;> decide
  obtain ⟨row, hrow, p, hp, hplace, rfl⟩ := h
  obtain rfl := Option.some.inj hplace
  exact htable row hrow place hp (move, child) hc

/-- A forked process returns to the main loop if it fails where it gives up; otherwise it stays in `child_handle`, and
so does what it forks. -/
theorem child_move (h : InChild transport (some place) sites) (hc : control place o = some (move, child)) :
    if o = .fail ∧ GivesUp place sites then move.apply transport sites = (some (entry transport), [.main])
    else InChild transport (move.apply transport sites).1 (move.apply transport sites).2 ∧
      ∀ c ∈ child, InChild transport (c.apply transport sites).1 (c.apply transport sites).2 := by
  have htable : ∀ row ∈ childPlaces, ∀ p ∈ row.2, ∀ r ∈ control p o,
      if o = .fail ∧ GivesUp p (row.1 ++ childSites transport) then
        r.1.apply transport (row.1 ++ childSites transport) = (some (entry transport), [.main])
      else InChild transport (r.1.apply transport (row.1 ++ childSites transport)).1
          (r.1.apply transport (row.1 ++ childSites transport)).2 ∧
        ∀ c ∈ r.2, InChild transport (c.apply transport (row.1 ++ childSites transport)).1
          (c.apply transport (row.1 ++ childSites transport)).2 := by
    cases o with
    | command cmd => cases transport <;> cases cmd <;> decide
    | _ => cases transport <;> decide
  obtain ⟨row, hrow, hp, rfl⟩ := h place rfl
  exact htable row hrow place hp (move, child) hc

end Moves

/-! ### All processes -/

/-- Every process is where its kind can be. -/
def Roles (transport : Transport) (procs : List Proc) : Prop :=
  ∀ p ∈ procs, (p.forked = false → InMaster transport p.place p.sites) ∧
    (p.forked = true → InChild transport p.place p.sites)

section Steps

variable {transport : Transport} {procs t : List Proc} {a : Nat × Outcome}

private theorem roles_start (transport : Transport) : Roles transport (start transport) := by
  intro p hp
  obtain rfl := List.mem_singleton.1 hp
  cases transport <;> decide

/-- No place of `child_handle` is the one that receives from the listening socket. -/
private theorem Roles.onlyMaster (h : Roles transport procs) : OnlyMaster transport procs := by
  intro p hp hplace
  by_contra hforked
  obtain ⟨row, hrow, hmem, -⟩ := (h p hp).2 (by simpa using hforked) (entry transport) hplace
  have hentry : ∀ row ∈ childPlaces, entry transport ∉ row.2 := by cases transport <;> decide
  exact hentry row hrow hmem

/-- A step in which no forked process gives up keeps the roles apart. -/
theorem Roles.step (h : Roles transport procs) (ha : NoneGivesUp procs a)
    (ht : Server.step transport procs a = some t) : Roles transport t := by
  obtain ⟨p, place, move, child, hp, hplace, hc, rfl⟩ := step_eq_some.1 ht
  obtain ⟨hmaster, hchild⟩ := h p (List.mem_of_getElem? hp)
  have hmoves : ((p.forked = false → InMaster transport (p.next transport move).place (p.next transport move).sites) ∧
      (p.forked = true → InChild transport (p.next transport move).place (p.next transport move).sites)) ∧
        ∀ c ∈ child, InChild transport (p.next transport c).place (p.next transport c).sites := by
    cases hforked : p.forked with
    | false =>
      obtain ⟨hnext, hchildren⟩ := master_move (hplace ▸ hmaster hforked) hc
      exact ⟨⟨fun _ => hnext, fun h => absurd h (by decide)⟩, hchildren⟩
    | true =>
      have hmove := child_move (hplace ▸ hchild hforked) hc
      rw [if_neg fun hfail => ha p hp hforked hfail.1 place hplace hfail.2] at hmove
      exact ⟨⟨fun h => absurd h (by decide), fun _ => hmove.1⟩, hmove.2⟩
  intro q hq
  rcases List.mem_append.1 hq with hq | hq
  · rcases List.mem_or_eq_of_mem_set hq with hq | rfl
    · exact h q hq
    · exact hmoves.1
  · obtain ⟨c, hchild, rfl⟩ := Option.mem_map.1 (Option.mem_toList.1 hq)
    exact ⟨fun h => absurd h (by simp), fun _ => hmoves.2 c hchild⟩

/-- While the roles are apart, only the original process is the master after a step if and only if no forked process
gives up in it. -/
theorem roles_step (h : Roles transport procs) :
    NoneGivesUp procs a ↔ ∀ t, Server.step transport procs a = some t → OnlyMaster transport t := by
  constructor
  · intro ha t ht
    exact (h.step ha ht).onlyMaster
  · intro hstep p hp hforked hfail place hplace hgives
    have hfails : ∀ q ∈ fallible, (control q .fail).isSome = true := by decide
    obtain ⟨⟨move, child⟩, hc⟩ := Option.isSome_iff_exists.1 (hfails place hgives.1)
    have hmove := child_move (hplace ▸ (h p (List.mem_of_getElem? hp)).2 hforked) hc
    rw [if_pos ⟨rfl, hgives⟩] at hmove
    have ht : Server.step transport procs a = some _ :=
      step_eq_some.2 ⟨p, place, move, child, hp, hplace, hfail ▸ hc, rfl⟩
    have hmem : p.next transport move ∈ procs.set a.1 (p.next transport move) :=
      List.mem_set (List.getElem?_eq_some_iff.1 hp).1 _
    have hmaster := hstep _ ht (p.next transport move) (List.mem_append_left _ hmem) (congrArg Prod.fst hmove)
    exact absurd (hforked.symm.trans hmaster) (by decide)

end Steps

/-- For every run of the server, with every outcome of every system call, over UDP and over TCP: in every state on the
way only the original process receives from the listening socket, if and only if no forked process fails where it gives
up. -/
theorem roles_iff (transport : Transport) (as : List (Nat × Outcome)) :
    AllSteps (step transport) NoneGivesUp (start transport) as ↔
      ∀ pre t, pre <+: as → run (step transport) (start transport) pre = some t → OnlyMaster transport t := by
  have hkeep : ∀ procs a t, Roles transport procs → NoneGivesUp procs a → step transport procs a = some t →
      Roles transport t := fun _ _ _ h ha ht => h.step ha ht
  have hcongr : AllSteps (step transport) NoneGivesUp (start transport) as ↔ AllSteps (step transport)
      (fun procs a => ∀ t, step transport procs a = some t → OnlyMaster transport t) (start transport) as :=
    allSteps_congr hkeep (fun _ _ h => roles_step h) (roles_start transport)
  rw [hcongr, allSteps_leads_iff (roles_start transport).onlyMaster]

/-- The child of a UDP client is asked for a shell and cannot open the terminal, or the shell's process cannot execute
it; the child of a TCP client cannot read.  Each of them then receives from the listening socket. -/
theorem not_onlyMaster :
    (∃ t, run (step .udp) (start .udp) [(0, .connect), (0, .ok), (0, .ok), (0, .ok), (1, .ok), (1, .ok), (1, .ok),
        (1, .ok), (1, .command .shell), (1, .fail)] = some t ∧ ¬ OnlyMaster .udp t) ∧
    (∃ t, run (step .udp) (start .udp) [(0, .connect), (0, .ok), (0, .ok), (0, .ok), (1, .ok), (1, .ok), (1, .ok),
        (1, .ok), (1, .command .shell), (1, .ok), (1, .ok), (1, .ok), (1, .ok), (1, .ok), (1, .ok), (1, .ok), (2, .ok),
        (2, .ok), (2, .ok), (2, .ok), (2, .fail)] = some t ∧ ¬ OnlyMaster .udp t) ∧
    (∃ t, run (step .tcp) (start .tcp) [(0, .ok), (0, .ok), (0, .ok), (0, .ok), (1, .fail)] = some t ∧
      ¬ OnlyMaster .tcp t) := by
  have hbad : ∀ transport t, (⟨true, some (entry transport), [.main]⟩ : Proc) ∈ t → ¬ OnlyMaster transport t := by
    intro transport t hmem h
    exact absurd (h _ hmem rfl) (by simp)
  refine ⟨⟨_, rfl, hbad _ _ ?_⟩, ⟨_, rfl, hbad _ _ ?_⟩, ⟨_, rfl, hbad _ _ ?_⟩⟩
  all_goals decide

end UnixTasks.Server
