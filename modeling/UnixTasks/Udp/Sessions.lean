import UnixTasks.Udp.Messages
import UnixTasks.Udp.Registry

/-!
# The sessions of the UDP clients

Datagrams arrive in any order.  For one client, the run of the master falls into three parts: before its connect the
registry does not have its id; while the session is open one slot has the id and this client's pipe, and nobody else
has either; after "quit\n" no slot has the id, and no slot in use has the pipe.

* (`openSession_ok`, `deliver_ok`) what a connect and a message do when every system call succeeds;
* (`Open`, `Closed`) the two parts of a session after the connect;
* (`pipe_of_session`) what is written to the pipe of a client.
-/

namespace UnixTasks.Udp

open CChar CString ActionSystem

/-! ### What one message does -/

/-- A connect takes the first slot that is free or has the id, and makes a pipe for it, unless there is none. -/
theorem openSession_ok (id : Int) (s : Master) :
    ((openSession .ok id s).1 = { s with num := -1 } ∧ 0 ∉ s.mas) ∨
      ∃ k : Nat, k < s.mas.length ∧ (s.mas[k]? = some 0 ∨ s.mas[k]? = some id) ∧ (openSession .ok id s).1 = { s with
        num := k
        mas := s.mas.set k id
        dataPipe := Function.update s.dataPipe k (some s.pipes)
        pipes := s.pipes + 1
        log := s.log ++ [.pipe k s.pipes id, .fork k] } := by
  rcases connectId_spec id s.mas with ⟨heq, hall⟩ | ⟨k, hk, heq, hslot, -⟩
  · left
    refine ⟨by simp [openSession, heq], ?_⟩
    intro h0
    exact (hall 0 h0).1 rfl
  · right
    have hpos : ¬ ((k : Int) < 0) := by omega
    exact ⟨k, hk, hslot, by simp [openSession, heq, Calls.ok, hpos]⟩

private theorem strncmp_quit {payload : List CChar} (hnul : 0 ∉ payload) :
    strncmp (quit.length + 1) (padded bufSz payload) quit = 0 ↔ payload = quit := by
  have hquit : (cstr quit).take (quit.length + 1) = quit := by decide
  rw [strncmp_eq_zero_iff, cstr_padded hnul, hquit]
  constructor
  · intro h
    have hlen := congrArg List.length h
    rw [List.length_take] at hlen
    rwa [List.take_of_length_le (by omega)] at h
  · rintro rfl
    decide

/-- A message of a client goes to the pipe of the first slot with its id; after "quit\n" the slot is free. -/
theorem deliver_ok {id : Int} {payload : List CChar} {s : Master} (hid : id ≠ -1) (hnul : 0 ∉ payload) :
    (id ∉ s.mas ∧ (deliver .ok id (padded bufSz payload) s).1 = { s with num := -1 }) ∨
      ∃ k : Nat, k < s.mas.length ∧ s.mas[k]? = some id ∧
        ((payload ≠ quit ∧ (deliver .ok id (padded bufSz payload) s).1 = { s with
          num := k
          log := s.log ++ [.write k (s.dataPipe k) (padded bufSz payload)] }) ∨
        (payload = quit ∧ (deliver .ok id (padded bufSz payload) s).1 = { s with
          num := k
          mas := s.mas.set k 0
          log := s.log ++ [.write k (s.dataPipe k) (padded bufSz payload), .close k (s.dataPipe k) true,
            .close k (s.dataPipe k) false] })) := by
  rcases find_spec id s.mas with ⟨heq, hnot⟩ | ⟨k, hk, heq, hslot, -⟩
  · exact .inl ⟨hnot, by simp [deliver, hid, heq]⟩
  · right
    refine ⟨k, hk, hslot, ?_⟩
    have hpos : ¬ ((k : Int) < 0) := by omega
    by_cases hq : payload = quit
    · have hcmp := (strncmp_quit hnul).2 hq
      exact .inr ⟨hq, by simp [deliver, closeSession, hid, heq, hpos, Calls.ok, hcmp]⟩
    · have hcmp := mt (strncmp_quit hnul).1 hq
      exact .inl ⟨hq, by simp [deliver, hid, heq, hpos, Calls.ok, hcmp]⟩

/-! ### The parts of a session -/

/-- What has been written to a pipe. -/
def writesTo (p : Nat) (log : List Event) : List (List CChar) :=
  log.filterMap fun
    | .write _ (some q) data => if q = p then some data else none
    | _ => none

/-- Pipes are named before they are used. -/
structure Named (s : Master) : Prop where
  dataPipe : ∀ n p, s.dataPipe n = some p → p < s.pipes
  log : ∀ p, s.pipes ≤ p → writesTo p s.log = []

/-- The session of the client `id` is open: it has the slot `n` and the pipe `p` for itself. -/
structure Open (id : Int) (n : Nat) (p : Nat) (s : Master) : Prop where
  slot : s.mas[n]? = some id
  alone : ∀ j, s.mas[j]? = some id → j = n
  pipe : s.dataPipe n = some p
  pipe_alone : ∀ j : Int, s.dataPipe j = some p → j = n
  named : p < s.pipes

/-- The session with the pipe `p` is over: no slot has the client `id`, and no slot in use has the pipe. -/
structure Closed (id : Int) (p : Nat) (s : Master) : Prop where
  slot : id ∉ s.mas
  pipe : ∀ j : Nat, ∀ m, s.mas[j]? = some m → m ≠ 0 → s.dataPipe j ≠ some p
  named : p < s.pipes

private theorem writesTo_append (p : Nat) (log log' : List Event) :
    writesTo p (log ++ log') = writesTo p log ++ writesTo p log' := List.filterMap_append

private theorem writesTo_write_self (p : Nat) (n : Int) (data : List CChar) (log : List Event) :
    writesTo p (.write n (some p) data :: log) = data :: writesTo p log := by
  simp [writesTo]

private theorem writesTo_write_of_ne {p : Nat} {q : Option Nat} (h : q ≠ some p) (n : Int) (data : List CChar)
    (log : List Event) : writesTo p (.write n q data :: log) = writesTo p log := by
  cases q with
  | none => simp [writesTo]
  | some q =>
    have hne : q ≠ p := fun heq => h (by rw [heq])
    simp [writesTo, hne]

/-- A write to another pipe, and closes after it. -/
private theorem writesTo_append_of_ne {p : Nat} {q : Option Nat} (h : q ≠ some p) (n : Int) (data : List CChar)
    {closes : List Event} (hcloses : writesTo p closes = []) (log : List Event) :
    writesTo p (log ++ .write n q data :: closes) = writesTo p log := by
  rw [writesTo_append, writesTo_write_of_ne h, hcloses, List.append_nil]

section Steps

variable {id : Int} {n p : Nat} {s : Master}

/-- `num` and the log are not the concern of a session. -/
theorem Open.other (h : Open id n p s) (num : Int) (log : List Event) :
    Open id n p ⟨num, s.mas, s.dataPipe, s.pipes, log⟩ :=
  ⟨h.slot, h.alone, h.pipe, h.pipe_alone, h.named⟩

theorem Closed.other (h : Closed id p s) (num : Int) (log : List Event) :
    Closed id p ⟨num, s.mas, s.dataPipe, s.pipes, log⟩ :=
  ⟨h.slot, h.pipe, h.named⟩

/-- A new session takes another slot and another pipe. -/
theorem Open.openSession (h : Open id n p s) (hid : id ≠ 0) {id' : Int} (hne : id' ≠ id) {k : Nat}
    (hk : s.mas[k]? = some 0 ∨ s.mas[k]? = some id') (num : Int) (log : List Event) :
    Open id n p ⟨num, s.mas.set k id', Function.update s.dataPipe k (some s.pipes), s.pipes + 1, log⟩ := by
  have hkn : k ≠ n := by
    rintro rfl
    rw [h.slot, Option.some.injEq, Option.some.injEq] at hk
    rcases hk with hk | hk
    · exact hid hk
    · exact hne hk.symm
  have hnamed := h.named
  refine ⟨?_, ?_, ?_, ?_, by simp only; omega⟩
  · simp only [List.getElem?_set_ne hkn]
    exact h.slot
  · intro j hj
    rcases getElem?_set_cases hj with ⟨-, hnew⟩ | ⟨-, hj⟩
    · exact absurd hnew.symm hne
    · exact h.alone j hj
  · have hkn' : (n : Int) ≠ k := by omega
    simp only [Function.update_of_ne hkn']
    exact h.pipe
  · intro j hj
    by_cases hjk : j = k
    · subst hjk
      simp only [Function.update_self, Option.some.injEq] at hj
      omega
    · simp only [Function.update_of_ne hjk] at hj
      exact h.pipe_alone j hj

/-- Another session ends. -/
theorem Open.closeSession (h : Open id n p s) (hid : id ≠ 0) {k : Nat} (hk : k ≠ n) (num : Int) (log : List Event) :
    Open id n p ⟨num, s.mas.set k 0, s.dataPipe, s.pipes, log⟩ := by
  refine ⟨?_, ?_, h.pipe, h.pipe_alone, h.named⟩
  · simp only [List.getElem?_set_ne hk]
    exact h.slot
  · intro j hj
    exact h.alone j (getElem?_of_set_zero hid hj).2

/-- The session itself ends. -/
theorem Open.close (h : Open id n p s) (hid : id ≠ 0) (num : Int) (log : List Event) :
    Closed id p ⟨num, s.mas.set n 0, s.dataPipe, s.pipes, log⟩ := by
  refine ⟨?_, ?_, h.named⟩
  · intro hmem
    obtain ⟨j, hj⟩ := List.mem_iff_getElem?.1 hmem
    obtain ⟨hjn, hj⟩ := getElem?_of_set_zero hid hj
    exact hjn (h.alone j hj)
  · intro j m hj hm hp
    have hjn : j = n := by exact_mod_cast h.pipe_alone j hp
    exact (getElem?_of_set_zero hm hj).1 hjn

theorem Closed.openSession (h : Closed id p s) {id' : Int} (hne : id' ≠ id) {k : Nat} (num : Int) (log : List Event) :
    Closed id p ⟨num, s.mas.set k id', Function.update s.dataPipe k (some s.pipes), s.pipes + 1, log⟩ := by
  have hnamed := h.named
  refine ⟨?_, ?_, by simp only; omega⟩
  · intro hmem
    rcases List.mem_or_eq_of_mem_set hmem with hmem | heq
    · exact h.slot hmem
    · exact hne heq.symm
  · intro j m hj hm hp
    rcases getElem?_set_cases hj with ⟨rfl, -⟩ | ⟨hjk, hj⟩
    · simp only [Function.update_self, Option.some.injEq] at hp
      omega
    · have hjk' : (j : Int) ≠ k := by omega
      simp only [Function.update_of_ne hjk'] at hp
      exact h.pipe j m hj hm hp

theorem Closed.closeSession (h : Closed id p s) (hid : id ≠ 0) (k : Nat) (num : Int) (log : List Event) :
    Closed id p ⟨num, s.mas.set k 0, s.dataPipe, s.pipes, log⟩ := by
  refine ⟨?_, ?_, h.named⟩
  · intro hmem
    rcases List.mem_or_eq_of_mem_set hmem with hmem | heq
    · exact h.slot hmem
    · exact hid heq
  · intro j m hj hm
    exact h.pipe j m (getElem?_of_set_zero hm hj).2 hm

/-- The messages of a client that have to be delivered: all up to the first "quit\n". -/
def sent (id : List CChar) : List Msg → List (List CChar)
  | [] => []
  | .data id' payload _ :: ms =>
    if id' = id then payload :: (if payload = quit then [] else sent id ms) else sent id ms
  | _ :: ms => sent id ms

/-- A message other than a connect of the client itself, while its session is open. -/
theorem Open.step {m : Msg} (h : Open id n p s) (hid : id ≠ 0) (hm : m.WellFormed)
    (hconnect : ∀ id' tail, m = .connect id' tail → atoi id' ≠ id) :
    ∃ s', s.step (.ok, m.datagram) = some s' ∧
      ((∃ id' payload tail, m = .data id' payload tail ∧ atoi id' = id ∧
        writesTo p s'.log = writesTo p s.log ++ [padded bufSz payload] ∧
        (payload = quit → Closed id p s') ∧ (payload ≠ quit → Open id n p s')) ∨
      ((∀ id' payload tail, m = .data id' payload tail → atoi id' ≠ id) ∧
        writesTo p s'.log = writesTo p s.log ∧ Open id n p s')) := by
  cases m with
  | hello tail =>
    refine ⟨_, step_hello s hm, .inr ⟨by simp, ?_, h.other _ _⟩⟩
    simp [writesTo]
  | connect id' tail =>
    have hne := hconnect id' tail rfl
    refine ⟨_, step_connect .ok s hm.1.1 hm.2, .inr ⟨by simp, ?_⟩⟩
    rcases openSession_ok (atoi id') s with ⟨heq, -⟩ | ⟨k, -, hslot, heq⟩
    · rw [heq]
      exact ⟨rfl, h.other _ _⟩
    · rw [heq]
      refine ⟨?_, h.openSession hid hne hslot _ _⟩
      simp [writesTo]
  | data id' payload tail =>
    refine ⟨_, step_data .ok s hm, ?_⟩
    obtain ⟨⟨-, -, hminus⟩, hnul, -, -⟩ := hm
    by_cases hown : atoi id' = id
    · left
      refine ⟨id', payload, tail, rfl, hown, ?_⟩
      rcases deliver_ok (s := s) hminus hnul with ⟨hnot, -⟩ | ⟨k, -, hslot, heff⟩
      · rw [hown] at hnot
        exact absurd (List.mem_of_getElem? h.slot) hnot
      · rw [hown] at hslot heff ⊢
        obtain rfl := h.alone k hslot
        rw [h.pipe] at heff
        rcases heff with ⟨hq, heq⟩ | ⟨hq, heq⟩
        · rw [heq]
          refine ⟨?_, fun hq' => absurd hq' hq, fun _ => h.other _ _⟩
          rw [writesTo_append, writesTo_write_self]
          rfl
        · rw [heq]
          refine ⟨?_, fun _ => h.close hid _ _, fun hq' => absurd hq hq'⟩
          rw [writesTo_append, writesTo_write_self]
          rfl
    · right
      refine ⟨?_, ?_⟩
      · intro id'' payload' tail' heq
        cases heq
        exact hown
      rcases deliver_ok (s := s) hminus hnul with ⟨-, heq⟩ | ⟨k, -, hslot, heff⟩
      · rw [heq]
        exact ⟨rfl, h.other _ _⟩
      · have hkn : k ≠ n := by
          rintro rfl
          rw [h.slot, Option.some.injEq] at hslot
          exact hown hslot.symm
        have hpipe : s.dataPipe k ≠ some p := by
          intro hp
          exact hkn (by exact_mod_cast h.pipe_alone k hp)
        rcases heff with ⟨-, heq⟩ | ⟨-, heq⟩
        · rw [heq]
          refine ⟨?_, h.other _ _⟩
          exact writesTo_append_of_ne hpipe _ _ rfl _
        · rw [heq]
          refine ⟨?_, h.closeSession hid hkn _ _⟩
          exact writesTo_append_of_ne hpipe _ _ rfl _

/-- A message after the end of the session: nothing more goes to its pipe. -/
theorem Closed.step {m : Msg} (h : Closed id p s) (hid : id ≠ 0) (hm : m.WellFormed)
    (hconnect : ∀ id' tail, m = .connect id' tail → atoi id' ≠ id) :
    ∃ s', s.step (.ok, m.datagram) = some s' ∧ writesTo p s'.log = writesTo p s.log ∧ Closed id p s' := by
  cases m with
  | hello tail =>
    refine ⟨_, step_hello s hm, ?_, h.other _ _⟩
    simp [writesTo]
  | connect id' tail =>
    have hne := hconnect id' tail rfl
    refine ⟨_, step_connect .ok s hm.1.1 hm.2, ?_⟩
    rcases openSession_ok (atoi id') s with ⟨heq, -⟩ | ⟨k, -, -, heq⟩
    · rw [heq]
      exact ⟨rfl, h.other _ _⟩
    · rw [heq]
      refine ⟨?_, h.openSession hne _ _⟩
      simp [writesTo]
  | data id' payload tail =>
    refine ⟨_, step_data .ok s hm, ?_⟩
    obtain ⟨⟨-, hzero, hminus⟩, hnul, -, -⟩ := hm
    rcases deliver_ok (s := s) hminus hnul with ⟨-, heq⟩ | ⟨k, -, hslot, heff⟩
    · rw [heq]
      exact ⟨rfl, h.other _ _⟩
    · have hpipe := h.pipe k _ hslot hzero
      rcases heff with ⟨-, heq⟩ | ⟨-, heq⟩
      · rw [heq]
        refine ⟨?_, h.other _ _⟩
        exact writesTo_append_of_ne hpipe _ _ rfl _
      · rw [heq]
        refine ⟨?_, h.closeSession hid k _ _⟩
        exact writesTo_append_of_ne hpipe _ _ rfl _

end Steps

/-! ### Whole runs -/

/-- The rounds in which the messages arrive, when every system call succeeds. -/
def rounds (ms : List Msg) : List (Calls × List CChar) := ms.map fun m => (.ok, m.datagram)

/-- No message of the list is a connect of the client `id`. -/
def NoConnect (id : Int) (ms : List Msg) : Prop := ∀ m ∈ ms, ∀ id' tail, m = .connect id' tail → atoi id' ≠ id

theorem Closed.run {id : Int} {p : Nat} {s : Master} {ms : List Msg} (h : Closed id p s) (hid : id ≠ 0)
    (hms : ∀ m ∈ ms, m.WellFormed) (hconnect : NoConnect id ms) :
    ∃ s', run Master.step s (rounds ms) = some s' ∧ writesTo p s'.log = writesTo p s.log ∧ Closed id p s' := by
  induction ms generalizing s with
  | nil => exact ⟨s, rfl, rfl, h⟩
  | cons m ms ih =>
    obtain ⟨u, hu, hwrites, hclosed⟩ := h.step hid (hms m (by simp)) (hconnect m (by simp))
    obtain ⟨t, ht, htwrites, htclosed⟩ :=
      ih hclosed (fun m hm => hms m (by simp [hm])) fun m hm => hconnect m (by simp [hm])
    exact ⟨t, run_cons_eq_some.2 ⟨u, hu, ht⟩, htwrites.trans hwrites, htclosed⟩

/-- While the session is open, and then until the end of the run: the pipe gets what the client sends up to its first
"quit\n", and the session is over if and only if there was one. -/
theorem Open.run {id : List CChar} {n p : Nat} {s : Master} {ms : List Msg} (h : Open (atoi id) n p s)
    (hid : atoi id ≠ 0) (hms : ∀ m ∈ ms, m.WellFormed) (hconnect : NoConnect (atoi id) ms)
    (hdistinct : ∀ m ∈ ms, ∀ id' ∈ m.client, atoi id' = atoi id → id' = id) :
    ∃ s', run Master.step s (rounds ms) = some s' ∧
      writesTo p s'.log = writesTo p s.log ++ (sent id ms).map (padded bufSz) ∧
      (quit ∈ sent id ms → Closed (atoi id) p s') ∧ (quit ∉ sent id ms → Open (atoi id) n p s') := by
  induction ms generalizing s with
  | nil => exact ⟨s, rfl, (List.append_nil _).symm, by simp [sent], fun _ => h⟩
  | cons m ms ih =>
    have hms' : ∀ m ∈ ms, m.WellFormed := fun m hm => hms m (by simp [hm])
    have hconnect' : NoConnect (atoi id) ms := fun m hm => hconnect m (by simp [hm])
    have hdistinct' : ∀ m ∈ ms, ∀ id' ∈ m.client, atoi id' = atoi id → id' = id :=
      fun m hm => hdistinct m (by simp [hm])
    obtain ⟨u, hu, heff⟩ := h.step hid (hms m (by simp)) (hconnect m (by simp))
    rcases heff with ⟨id', payload, tail, rfl, hown, hwrites, hquit, hopen⟩ | ⟨hother, hwrites, hopen⟩
    · obtain rfl : id' = id := hdistinct _ List.mem_cons_self id' rfl hown
      by_cases hq : payload = quit
      · obtain ⟨t, ht, htwrites, htclosed⟩ := (hquit hq).run hid hms' hconnect'
        refine ⟨t, run_cons_eq_some.2 ⟨u, hu, ht⟩, ?_, fun _ => htclosed, ?_⟩
        · rw [htwrites, hwrites]
          simp [sent, hq]
        · intro hnot
          exact absurd (by simp [sent, hq]) hnot
      · have hsent : sent id' (.data id' payload tail :: ms) = payload :: sent id' ms := by simp [sent, hq]
        have hmem : quit ∈ sent id' (.data id' payload tail :: ms) ↔ quit ∈ sent id' ms := by
          rw [hsent, List.mem_cons, or_iff_right (Ne.symm hq)]
        obtain ⟨t, ht, htwrites, htends⟩ := ih (hopen hq) hms' hconnect' hdistinct'
        refine ⟨t, run_cons_eq_some.2 ⟨u, hu, ht⟩, ?_, ?_⟩
        · rw [htwrites, hwrites, hsent]
          simp
        · rwa [hmem]
    · obtain ⟨t, ht, htwrites, htends⟩ := ih hopen hms' hconnect' hdistinct'
      have hsent : sent id (m :: ms) = sent id ms := by
        cases m with
        | data id' payload tail =>
          have hne : id' ≠ id := fun heq => hother id' payload tail rfl (by rw [heq])
          simp [sent, hne]
        | _ => rfl
      refine ⟨t, run_cons_eq_some.2 ⟨u, hu, ht⟩, ?_, ?_⟩
      · rw [htwrites, hwrites, hsent]
      · rwa [hsent]

/-- Any message, for the registry as a whole: the ids in `mas` are those of connects. -/
theorem Named.step {s : Master} {m : Msg} (h : Named s) (hm : m.WellFormed) :
    ∃ s', s.step (.ok, m.datagram) = some s' ∧ Named s' ∧
      ∀ x ∈ s'.mas, x = 0 ∨ x ∈ s.mas ∨ ∃ id tail, m = .connect id tail ∧ x = atoi id := by
  cases m with
  | hello tail =>
    refine ⟨_, step_hello s hm, ⟨h.dataPipe, ?_⟩, fun x hx => .inr (.inl hx)⟩
    intro p hp
    rw [writesTo_append, h.log p hp]
    rfl
  | connect id tail =>
    refine ⟨_, step_connect .ok s hm.1.1 hm.2, ?_⟩
    rcases openSession_ok (atoi id) s with ⟨heq, -⟩ | ⟨k, -, -, heq⟩
    · rw [heq]
      exact ⟨⟨h.dataPipe, h.log⟩, fun x hx => .inr (.inl hx)⟩
    · rw [heq]
      refine ⟨⟨?_, ?_⟩, ?_⟩
      · intro n p hp
        by_cases hn : n = k
        · subst hn
          simp only [Function.update_self, Option.some.injEq] at hp
          simp only
          omega
        · simp only [Function.update_of_ne hn] at hp
          have := h.dataPipe n p hp
          simp only
          omega
      · intro p hp
        have hlog := h.log p (by simp only at hp; omega)
        rw [writesTo_append, hlog]
        rfl
      · intro x hx
        rcases List.mem_or_eq_of_mem_set hx with hx | rfl
        · exact .inr (.inl hx)
        · exact .inr (.inr ⟨id, tail, rfl, rfl⟩)
  | data id payload tail =>
    refine ⟨_, step_data .ok s hm, ?_⟩
    obtain ⟨⟨-, -, hminus⟩, hnul, -, -⟩ := hm
    rcases deliver_ok (s := s) hminus hnul with ⟨-, heq⟩ | ⟨k, -, -, heff⟩
    · rw [heq]
      exact ⟨⟨h.dataPipe, h.log⟩, fun x hx => .inr (.inl hx)⟩
    · have hpipe : ∀ p, s.pipes ≤ p → s.dataPipe k ≠ some p := by
        intro p hp heq
        have := h.dataPipe k p heq
        omega
      rcases heff with ⟨-, heq⟩ | ⟨-, heq⟩
      · rw [heq]
        refine ⟨⟨h.dataPipe, ?_⟩, fun x hx => .inr (.inl hx)⟩
        intro p hp
        rw [writesTo_append_of_ne (hpipe p hp) _ _ rfl, h.log p hp]
      · rw [heq]
        refine ⟨⟨h.dataPipe, ?_⟩, ?_⟩
        · intro p hp
          rw [writesTo_append_of_ne (hpipe p hp) _ _ rfl, h.log p hp]
        · intro x hx
          rcases List.mem_or_eq_of_mem_set hx with hx | rfl
          · exact .inr (.inl hx)
          · exact .inl rfl

theorem Named.run {s : Master} {ms : List Msg} (h : Named s) (hms : ∀ m ∈ ms, m.WellFormed) :
    ∃ s', ActionSystem.run Master.step s (rounds ms) = some s' ∧ Named s' ∧
      ∀ x ∈ s'.mas, x = 0 ∨ x ∈ s.mas ∨ ∃ id tail, .connect id tail ∈ ms ∧ x = atoi id := by
  induction ms generalizing s with
  | nil => exact ⟨s, rfl, h, fun x hx => .inr (.inl hx)⟩
  | cons m ms ih =>
    obtain ⟨u, hu, hnamed, hmas⟩ := h.step (hms m (by simp))
    obtain ⟨t, ht, htnamed, htmas⟩ := ih hnamed fun m hm => hms m (by simp [hm])
    refine ⟨t, run_cons_eq_some.2 ⟨u, hu, ht⟩, htnamed, ?_⟩
    intro x hx
    rcases htmas x hx with hx | hx | ⟨id, tail, hmem, hx⟩
    · exact .inl hx
    · rcases hmas x hx with hx | hx | ⟨id, tail, hmem, hx⟩
      · exact .inl hx
      · exact .inr (.inl hx)
      · exact .inr (.inr ⟨id, tail, by simp [hmem], hx⟩)
    · exact .inr (.inr ⟨id, tail, by simp [hmem], hx⟩)

private theorem named_start : Named Master.start :=
  ⟨fun _ _ h => absurd h (by simp [Master.start]), fun _ _ => rfl⟩

/-- Every client of the list connects exactly once and before it sends anything else; the clients `seen` have
connected before. -/
def ConnectsFirst : List (List CChar) → List Msg → Prop
  | _, [] => True
  | seen, .hello _ :: ms => ConnectsFirst seen ms
  | seen, .connect id _ :: ms => id ∉ seen ∧ ConnectsFirst (id :: seen) ms
  | seen, .data id _ _ :: ms => id ∈ seen ∧ ConnectsFirst seen ms

instance decidableConnectsFirst : ∀ seen ms, Decidable (ConnectsFirst seen ms)
  | _, [] => inferInstanceAs (Decidable True)
  | seen, .hello _ :: ms => decidableConnectsFirst seen ms
  | seen, .connect id _ :: ms => @instDecidableAnd _ _ inferInstance (decidableConnectsFirst (id :: seen) ms)
  | seen, .data _ _ _ :: ms => @instDecidableAnd _ _ inferInstance (decidableConnectsFirst seen ms)

theorem ConnectsFirst.after {id : List CChar} {seen : List (List CChar)} {ms : List Msg} (h : ConnectsFirst seen ms)
    (hid : id ∈ seen) : ∀ tail, .connect id tail ∉ ms := by
  induction ms generalizing seen with
  | nil => simp
  | cons m ms ih =>
    intro tail hmem
    cases m with
    | hello _ => exact ih h hid tail (by simpa using hmem)
    | connect id' tail' =>
      rcases List.mem_cons.1 hmem with heq | hmem
      · cases heq
        exact h.1 hid
      · exact ih h.2 (List.mem_cons_of_mem _ hid) tail hmem
    | data id' payload tail' => exact ih h.2 hid tail (by simpa using hmem)

/-- The connect of a client is its first message and its only connect. -/
theorem ConnectsFirst.split {id tail : List CChar} {seen : List (List CChar)} {pre post : List Msg}
    (h : ConnectsFirst seen (pre ++ .connect id tail :: post)) :
    id ∉ seen ∧ (∀ m ∈ pre, m.client ≠ some id) ∧ ∀ tail', .connect id tail' ∉ post := by
  induction pre generalizing seen with
  | nil => exact ⟨h.1, by simp, h.2.after List.mem_cons_self⟩
  | cons m pre ih =>
    cases m with
    | hello _ =>
      obtain ⟨hseen, hpre, hpost⟩ := ih h
      exact ⟨hseen, by simpa [Msg.client] using hpre, hpost⟩
    | connect id' tail' =>
      obtain ⟨hseen, hpre, hpost⟩ := ih h.2
      rw [List.mem_cons, not_or] at hseen
      exact ⟨hseen.2, by simpa [Msg.client, Ne.symm hseen.1] using hpre, hpost⟩
    | data id' payload tail' =>
      obtain ⟨hseen, hpre, hpost⟩ := ih h.2
      have hne : id' ≠ id := fun heq => hseen (heq ▸ h.1)
      exact ⟨hseen, by simpa [Msg.client, hne] using hpre, hpost⟩

theorem sent_append_of_no_client {id : List CChar} {pre : List Msg} (h : ∀ m ∈ pre, m.client ≠ some id)
    (ms : List Msg) : sent id (pre ++ ms) = sent id ms := by
  induction pre with
  | nil => rfl
  | cons m pre ih =>
    have ih' := ih fun m hm => h m (by simp [hm])
    cases m with
    | data id' payload tail =>
      have hne : id' ≠ id := fun heq => h _ List.mem_cons_self (by rw [Msg.client, heq])
      simp [sent, hne, ih']
    | _ => exact ih'

/-- A finite sequence of datagrams of clients with different ids, each of which connects first. -/
structure Session (ms : List Msg) : Prop where
  wellFormed : ∀ m ∈ ms, m.WellFormed
  distinct : ∀ m ∈ ms, ∀ m' ∈ ms, ∀ id ∈ m.client, ∀ id' ∈ m'.client, atoi id = atoi id' → id = id'
  connectsFirst : ConnectsFirst [] ms

/-- What is known about the messages after the connect of a client. -/
theorem Session.after {ms pre post : List Msg} {id tail : List CChar} (h : Session ms)
    (hms : ms = pre ++ .connect id tail :: post) :
    IdOk id ∧ (∀ m ∈ post, m.WellFormed) ∧ NoConnect (atoi id) post ∧
      (∀ m ∈ post, ∀ id' ∈ m.client, atoi id' = atoi id → id' = id) ∧ sent id ms = sent id post := by
  obtain ⟨hwf, hdistinct, hfirst⟩ := h
  rw [hms] at hwf hdistinct hfirst
  obtain ⟨-, hpre, hpost⟩ := hfirst.split
  have hm := hwf (.connect id tail) (by simp)
  have hother : ∀ m ∈ post, ∀ id' ∈ m.client, atoi id' = atoi id → id' = id :=
    fun m hm id' hid' heq => hdistinct m (by simp [hm]) (.connect id tail) (by simp) id' hid' id rfl heq
  refine ⟨hm.1, fun m hm => hwf m (by simp [hm]), ?_, hother, ?_⟩
  · intro m hm id' tail' hmeq heq
    subst hmeq
    have heq' := hother _ hm id' rfl heq
    rw [heq'] at hm
    exact hpost tail' hm
  · rw [hms, sent_append_of_no_client hpre]
    rfl

/-- The connect of a client: it finds no slot, or its session is open and nothing has been written to its pipe. -/
theorem Session.opens {ms pre post : List Msg} {id tail : List CChar} (h : Session ms)
    (hms : ms = pre ++ .connect id tail :: post) :
    ∃ s₁ s₂, run Master.step .start (rounds pre) = some s₁ ∧
      s₁.step (.ok, (Msg.connect id tail).datagram) = some s₂ ∧ Named s₂ ∧
      ((0 ∉ s₁.mas ∧ s₂.num = -1) ∨ (0 ∈ s₁.mas ∧ ∃ k : Nat, s₂.num = k ∧ .pipe k s₁.pipes (atoi id) ∈ s₂.log ∧
        Open (atoi id) k s₁.pipes s₂ ∧ writesTo s₁.pipes s₂.log = [])) := by
  obtain ⟨hwf, hdistinct, hfirst⟩ := h
  rw [hms] at hwf hdistinct hfirst
  obtain ⟨-, hpre, -⟩ := hfirst.split
  have hm := hwf (.connect id tail) (by simp)
  have hid : atoi id ≠ 0 := hm.1.2.1
  have hwfpre : ∀ m ∈ pre, m.WellFormed := fun m hm => hwf m (by simp [hm])
  obtain ⟨s₁, hs₁, hnamed, hmas⟩ := named_start.run hwfpre
  -- nobody else has the number of this client
  have hnot : atoi id ∉ s₁.mas := by
    intro hmem
    rcases hmas _ hmem with h0 | hstart | ⟨id', tail', hmem', heq⟩
    · exact hid h0
    · exact hid (List.eq_of_mem_replicate hstart)
    · have heq' : id' = id :=
        hdistinct _ (List.mem_append_left _ hmem') (.connect id tail) (by simp) id' rfl id rfl heq.symm
      exact hpre _ hmem' (by rw [heq']; rfl)
  have hstep := step_connect .ok s₁ hm.1.1 hm.2
  obtain ⟨u, hu, hnamed', -⟩ := hnamed.step hm
  obtain rfl : _ = u := Option.some.inj (hstep.symm.trans hu)
  refine ⟨s₁, _, hs₁, hstep, hnamed', ?_⟩
  rcases openSession_ok (atoi id) s₁ with ⟨heq, hfull⟩ | ⟨k, hk, hslot, heq⟩
  · rw [heq]
    exact .inl ⟨hfull, rfl⟩
  · rw [heq]
    have hfree : s₁.mas[k]? = some 0 := hslot.resolve_right fun h => hnot (List.mem_of_getElem? h)
    refine .inr ⟨List.mem_of_getElem? hfree, k, rfl, by simp, ?_, ?_⟩
    · refine ⟨List.getElem?_set_self hk, ?_, Function.update_self .., ?_, Nat.lt_succ_self _⟩
      · intro j hj
        by_contra hjk
        simp only [List.getElem?_set_ne (Ne.symm hjk)] at hj
        exact hnot (List.mem_of_getElem? hj)
      · intro j hj
        by_contra hjk
        simp only [Function.update_of_ne hjk] at hj
        exact absurd (hnamed.dataPipe j _ hj) (Nat.lt_irrefl _)
    · rw [writesTo_append, hnamed.log _ (Nat.le_refl _)]
      rfl

/-- The connect of a client gets a slot if and only if one is free.  Then it makes a pipe, and what is written to this
pipe in the whole run is what the client sends up to its first "quit\n", in this order. -/
theorem pipe_of_session {ms pre post : List Msg} {id tail : List CChar} (h : Session ms)
    (hms : ms = pre ++ .connect id tail :: post) :
    ∃ s₁ s₂ s, run Master.step .start (rounds pre) = some s₁ ∧
      s₁.step (.ok, (Msg.connect id tail).datagram) = some s₂ ∧ run Master.step s₂ (rounds post) = some s ∧
      (0 ≤ s₂.num ↔ 0 ∈ s₁.mas) ∧
      (0 ≤ s₂.num → .pipe s₂.num s₁.pipes (atoi id) ∈ s₂.log ∧ s₂.dataPipe s₂.num = some s₁.pipes ∧
        writesTo s₁.pipes s.log = (sent id ms).map (padded bufSz)) := by
  obtain ⟨hidok, hwfpost, hnoconnect, hother, hsent⟩ := h.after hms
  obtain ⟨s₁, s₂, hs₁, hs₂, hnamed, ⟨hfull, hnum⟩ | ⟨hfree, k, hnum, hmade, hopen, hnone⟩⟩ := h.opens hms
  · obtain ⟨s, hs, -, -⟩ := hnamed.run hwfpost
    have hneg : ¬ 0 ≤ s₂.num := by omega
    exact ⟨s₁, s₂, s, hs₁, hs₂, hs, iff_of_false hneg hfull, fun h => absurd h hneg⟩
  · obtain ⟨s, hs, hwrites, -⟩ := hopen.run hidok.2.1 hwfpost hnoconnect hother
    refine ⟨s₁, s₂, s, hs₁, hs₂, hs, iff_of_true (by omega) hfree, ?_⟩
    intro _
    rw [hnum]
    refine ⟨hmade, hopen.pipe, ?_⟩
    rw [hwrites, hsent, hnone, List.nil_append]

/-- Two clients: the second connects and sends between the messages of the first, and the first is not heard any more
after its "quit\n". -/
theorem pipe_of_session_two_clients :
    ∃ s₁ s₂ s, run Master.step .start (rounds [.hello []]) = some s₁ ∧
      s₁.step (.ok, (Msg.connect (List.replicate 9 (chr '1')) []).datagram) = some s₂ ∧
      run Master.step s₂ (rounds [.data (List.replicate 9 (chr '1')) [chr 'l', chr 's'] [0],
        .connect (List.replicate 9 (chr '2')) [], .data (List.replicate 9 (chr '2')) [chr 'x'] [],
        .data (List.replicate 9 (chr '1')) quit [], .data (List.replicate 9 (chr '1')) [chr 'y'] []]) = some s ∧
      (0 ≤ s₂.num ↔ 0 ∈ s₁.mas) ∧
      (0 ≤ s₂.num → .pipe s₂.num s₁.pipes 111111111 ∈ s₂.log ∧ s₂.dataPipe s₂.num = some s₁.pipes ∧
        writesTo s₁.pipes s.log = [padded bufSz [chr 'l', chr 's'], padded bufSz quit]) :=
  pipe_of_session ⟨by decide, by decide, by decide⟩ rfl

end UnixTasks.Udp
