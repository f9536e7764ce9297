import UnixTasks.Udp.Messages
import UnixTasks.Udp.Rounds

/-!
# Messages go to the pipe of their client

`find` looks for the number that `atoi` reads, and 0, which stands for a free slot in `mas`, is also what `atoi` makes
of anything that is no number.  Then the master writes to a slot that nobody has, and closes its pipe.

* (`Routed`) what a round writes to or closes is an open pipe that was made for the id in its datagram;
* (`Routable`) the condition on a round;
* (`Piped`) every slot in use has such a pipe, and no two slots share one;
* (`routed_run`) in every run whose rounds meet the condition all rounds are routed;
* (`not_routed`) nine letters and a text, sent to a server without clients.
-/

namespace UnixTasks.Udp

open CChar CString ActionSystem

/-- Whenever the round writes to the pipe of a slot or closes one of its ends, this pipe was made before by a connect of
the id in the datagram, and has not been closed since. -/
def Routed (s : Master) (round : Calls × List CChar) : Prop :=
  ∀ t new, s.step round = some t → t.log = s.log ++ new → ∀ e ∈ new, ∀ n p, e.uses n p →
    ∃ q id payload, p = some q ∧ messageOf round.2 = some (id, payload) ∧ .pipe n q id ∈ s.log ∧
      ∀ m b, .close m (some q) b ∉ s.log

/-- The client has a slot, and no slot below it is free: a connect changes nothing but the pipe. -/
def Settled (id : Int) (mas : List Int) : Prop := ∃ k < mas.length, mas[k]? = some id ∧ ∀ j < k, mas[j]? ≠ some 0

instance (id : Int) (mas : List Int) : Decidable (Settled id mas) := inferInstanceAs (Decidable (∃ k < mas.length, _))

/-- A connect that takes a slot gets its pipe; the id of a message is not read as 0, unless there is no free slot to be
taken for it; and a session that closes the read end of its pipe closes the write end as well. -/
def Routable (s : Master) (round : Calls × List CChar) : Prop :=
  (∀ id ∈ connectedId round.2, id = 0 ∨ round.1.pipe = true ∨ Settled id s.mas) ∧
  (∀ m ∈ messageOf round.2, m.1 ≠ 0 ∨ 0 ∉ s.mas) ∧
  (round.1.closeRead = true → round.1.closeWrite = true)

instance (s : Master) (round : Calls × List CChar) : Decidable (Routable s round) :=
  inferInstanceAs (Decidable (_ ∧ _ ∧ _))

/-- Every slot in use has an open pipe that a connect has made for its id; a pipe belongs to one slot. -/
structure Piped (s : Master) : Prop where
  pipe : ∀ (k : Nat) (id : Int), s.mas[k]? = some id → id ≠ 0 → ∃ p, s.dataPipe k = some p ∧
    .pipe k p id ∈ s.log ∧ ∀ m b, .close m (some p) b ∉ s.log
  alone : ∀ n m p, s.dataPipe n = some p → s.dataPipe m = some p → n = m
  named : ∀ n p, s.dataPipe n = some p → p < s.pipes
  closed : ∀ m p b, .close m (some p) b ∈ s.log → p < s.pipes

private theorem piped_start : Piped .start where
  pipe := by
    intro k id hk hid
    exact absurd (List.eq_of_mem_replicate (List.mem_of_getElem? hk)) hid
  alone := by rintro n m p ⟨⟩
  named := by rintro n p ⟨⟩
  closed := by rintro m p b ⟨⟩

section Rounds

variable {s : Master}

/-- The events of the master other than a close leave the pipes of the slots open. -/
theorem Piped.append (h : Piped s) {new : List Event} (hnew : ∀ m p b, .close m (some p) b ∉ new) (num : Int) :
    Piped { s with num := num, log := s.log ++ new } where
  pipe := by
    intro k id hk hid
    obtain ⟨p, hp, hmade, hopen⟩ := h.pipe k id hk hid
    refine ⟨p, hp, List.mem_append_left _ hmade, ?_⟩
    intro m b hmem
    rcases List.mem_append.1 hmem with hmem | hmem
    · exact hopen m b hmem
    · exact hnew m p b hmem
  alone := h.alone
  named := h.named
  closed := by
    intro m p b hmem
    rcases List.mem_append.1 hmem with hmem | hmem
    · exact h.closed m p b hmem
    · exact absurd hmem (hnew m p b)

/-- A session ends: its pipe is closed and its slot is free. -/
theorem Piped.close (h : Piped s) {k : Nat} {new : List Event} (hnew : ∀ e ∈ new, e.uses k (s.dataPipe k)) :
    Piped { s with num := k, mas := s.mas.set k 0, log := s.log ++ new } where
  pipe := by
    intro j id hj hid
    obtain ⟨hjk, hj⟩ := getElem?_of_set_zero hid hj
    obtain ⟨p, hp, hmade, hopen⟩ := h.pipe j id hj hid
    refine ⟨p, hp, List.mem_append_left _ hmade, ?_⟩
    intro m b hmem
    rcases List.mem_append.1 hmem with hmem | hmem
    · exact hopen m b hmem
    · -- what is closed is the pipe of the slot `k`
      obtain ⟨-, hpk⟩ := hnew _ hmem
      have := h.alone k j p hpk.symm hp
      omega
  alone := h.alone
  named := h.named
  closed := by
    intro m p b hmem
    rcases List.mem_append.1 hmem with hmem | hmem
    · exact h.closed m p b hmem
    · exact h.named k p (hnew _ hmem).2.symm

/-- A connect makes a new pipe for the slot that it takes. -/
theorem Piped.connect (h : Piped s) {k : Nat} {id : Int} {forked : List Event} (hforked : ∀ e ∈ forked, e = .fork k) :
    Piped { s with
      num := k
      mas := s.mas.set k id
      dataPipe := Function.update s.dataPipe k (some s.pipes)
      pipes := s.pipes + 1
      log := s.log ++ .pipe k s.pipes id :: forked } := by
  have hclose : ∀ m p b, Event.close m (some p) b ∈ s.log ++ .pipe k s.pipes id :: forked →
      .close m (some p) b ∈ s.log := by
    intro m p b hmem
    rcases List.mem_append.1 hmem with hmem | hmem
    · exact hmem
    · rcases List.mem_cons.1 hmem with hmem | hmem
      · cases hmem
      · cases hforked _ hmem
  refine ⟨?_, ?_, ?_, ?_⟩
  · intro j id' hj hid'
    rcases getElem?_set_cases hj with ⟨rfl, rfl⟩ | ⟨hjk, hj⟩
    · refine ⟨s.pipes, Function.update_self .., by simp, ?_⟩
      intro m b hmem
      exact Nat.lt_irrefl _ (h.closed m _ b (hclose m _ b hmem))
    · have hjk' : (j : Int) ≠ k := by omega
      obtain ⟨p, hp, hmade, hopen⟩ := h.pipe j id' hj hid'
      refine ⟨p, by simpa only [Function.update_of_ne hjk'] using hp, List.mem_append_left _ hmade, ?_⟩
      exact fun m b hmem => hopen m b (hclose m p b hmem)
  · intro n m p hn hm
    -- the new pipe has a name that no slot has
    have hfresh : ∀ j, s.dataPipe j ≠ some s.pipes := fun j hj => Nat.lt_irrefl _ (h.named j _ hj)
    simp only [Function.update_apply] at hn hm
    split at hn <;> split at hm
    · omega
    · rw [← hn] at hm
      exact absurd hm (hfresh m)
    · rw [← hm] at hn
      exact absurd hn (hfresh n)
    · exact h.alone n m p hn hm
  · intro n p hp
    simp only [Function.update_apply] at hp
    split at hp
    · obtain rfl := Option.some.inj hp
      exact Nat.lt_succ_self _
    · exact Nat.lt_succ_of_lt (h.named n p hp)
  · exact fun m p b hmem => Nat.lt_succ_of_lt (h.closed m p b (hclose m p b hmem))

private theorem piped_step (s : Master) (round : Calls × List CChar) (t : Master) (h : Piped s) (hr : Routable s round)
    (hs : s.step round = some t) : Piped t := by
  obtain ⟨calls, datagram⟩ := round
  obtain ⟨hpipe, hzero, hclose⟩ := hr
  rcases step_cases hs with ⟨-, -, rfl | rfl⟩ | ⟨id, hconnect, -, rfl⟩ | ⟨id, payload, -, hmsg, rfl⟩
  · exact h
  · exact h.append (by simp) s.num
  · rcases openSession_cases calls id s with ⟨heq, -⟩ | ⟨k, -, hslot, hbelow, ⟨hfail, heq⟩ | ⟨-, forked, hforked, heq⟩⟩
    · rw [heq]
      exact ⟨h.pipe, h.alone, h.named, h.closed⟩
    · -- without a pipe the connect must not register anything
      have hown : s.mas[k]? = some id := by
        rcases hpipe id hconnect with rfl | hok | ⟨j, -, hj, hfree⟩
        · rwa [or_self] at hslot
        · rw [hok] at hfail
          cases hfail
        · rcases hslot with h0 | hown
          · have hkj : k ≤ j := by
              by_contra hlt
              exact (hbelow j (by omega) id hj).2 rfl
            rcases Nat.lt_or_eq_of_le hkj with hlt | rfl
            · exact absurd h0 (hfree k hlt)
            · exact hj
          · exact hown
      have hset : s.mas.set k id = s.mas := by
        obtain ⟨hlt, hk⟩ := List.getElem?_eq_some_iff.1 hown
        rw [← hk, List.set_getElem_self]
      rw [heq, hset]
      exact ⟨h.pipe, h.alone, h.named, h.closed⟩
    · rw [heq]
      exact h.connect hforked
  · rcases deliver_cases calls id payload s with
      (heq | heq) | ⟨k, -, -, new, hnew, ⟨hnone, heq⟩ | ⟨hread, hwrite, -⟩ | heq⟩
    · rwa [heq]
    · rw [heq]
      exact ⟨h.pipe, h.alone, h.named, h.closed⟩
    · rw [heq]
      exact h.append (fun m p b => hnone m (some p) b) k
    · rw [hclose hread] at hwrite
      cases hwrite
    · rw [heq]
      exact h.close hnew

private theorem routed_of_piped (s : Master) (round : Calls × List CChar) (h : Piped s) (hr : Routable s round) :
    Routed s round := by
  obtain ⟨calls, datagram⟩ := round
  obtain ⟨-, hzero, -⟩ := hr
  intro t new hs hlog e he n p huses
  rcases step_cases hs with ⟨-, -, rfl | rfl⟩ | ⟨id, -, -, rfl⟩ | ⟨id, payload, -, hmsg, rfl⟩
  · obtain rfl : new = [] := by simpa using hlog
    cases he
  · obtain rfl : [Event.answer] = new := List.append_cancel_left hlog
    obtain rfl := List.mem_singleton.1 he
    exact huses.elim
  · -- a connect writes nothing
    rcases openSession_cases calls id s with ⟨heq, -⟩ | ⟨k, -, -, -, ⟨-, heq⟩ | ⟨-, forked, hforked, heq⟩⟩
    · rw [heq] at hlog
      obtain rfl : new = [] := by simpa using hlog
      cases he
    · rw [heq] at hlog
      obtain rfl : new = [] := by simpa using hlog
      cases he
    · rw [heq] at hlog
      obtain rfl : .pipe k s.pipes id :: forked = new := List.append_cancel_left hlog
      rcases List.mem_cons.1 he with rfl | he
      · exact huses.elim
      · rw [hforked e he] at huses
        exact huses.elim
  · have hfound : ∀ k : Nat, s.mas[k]? = some id → ∀ new' : List Event, (∀ e ∈ new', e.uses k (s.dataPipe k)) →
        (Udp.deliver calls id payload s).1.log = s.log ++ new' → ∃ q id payload, p = some q ∧
          messageOf datagram = some (id, payload) ∧ .pipe n q id ∈ s.log ∧ ∀ m b, .close m (some q) b ∉ s.log := by
      intro k hslot new' hnew' hlog'
      obtain rfl : new' = new := List.append_cancel_left (hlog'.symm.trans hlog)
      have hid : id ≠ 0 := by
        rintro rfl
        rcases hzero _ hmsg with hne | hnot
        · exact hne rfl
        · exact hnot (List.mem_of_getElem? hslot)
      obtain ⟨q, hq, hmade, hopen⟩ := h.pipe k id hslot hid
      obtain ⟨rfl, rfl⟩ : (k : Int) = n ∧ s.dataPipe k = p := by
        have huses' := hnew' e he
        cases e with
        | write | close => exact ⟨huses'.1.symm.trans huses.1, huses'.2.symm.trans huses.2⟩
        | _ => exact huses.elim
      exact ⟨q, id, payload, hq, hmsg, hmade, hopen⟩
    rcases deliver_cases calls id payload s with
      (heq | heq) | ⟨k, -, hslot, new', hnew', ⟨-, heq⟩ | ⟨-, -, heq⟩ | heq⟩
    · rw [heq] at hlog
      obtain rfl : new = [] := by simpa using hlog
      cases he
    · rw [heq] at hlog
      obtain rfl : new = [] := by simpa using hlog
      cases he
    · exact hfound k hslot new' hnew' (by rw [heq])
    · exact hfound k hslot new' hnew' (by rw [heq])
    · exact hfound k hslot new' hnew' (by rw [heq])

/-- For every sequence of datagrams of any content, and any outcome of the system calls: when every connect gets its
pipe, no message has an id that is read as 0 while a slot is free, and both ends of a pipe are closed together, then
every write and every close goes to an open pipe that was made for the id in the datagram. -/
theorem routed_run (rounds : List (Calls × List CChar)) (h : AllSteps Master.step Routable .start rounds) :
    AllSteps Master.step Routed .start rounds :=
  h.of_invariant piped_step routed_of_piped piped_start

end Rounds

/-- A client connects, sends a line and quits. -/
theorem routed_run_session :
    AllSteps Master.step Routed .start [(.ok, (Msg.connect (List.replicate 9 (chr '1')) []).datagram),
      (.ok, (Msg.data (List.replicate 9 (chr '1')) [chr 'l', chr 's'] []).datagram),
      (.ok, (Msg.data (List.replicate 9 (chr '1')) quit []).datagram)] :=
  routed_run _ (by decide +kernel)

/-- Nobody has connected, and a datagram begins with nine letters: the master writes to the pipe of slot 0, which it
has never made. -/
theorem not_routed : ∃ datagram, ¬ Routed .start (.ok, datagram) := by
  let datagram : List CChar := ['n', 'o', ' ', 'n', 'u', 'm', 'b', 'e', 'r', 'l', 's', '\n'].map chr
  have hlog : (Master.start.step (.ok, datagram)).map Master.log =
      some [.write 0 none (padded bufSz (['l', 's', '\n'].map chr))] := by
    decide +kernel
  obtain ⟨t, ht, hlog⟩ := Option.map_eq_some_iff.1 hlog
  refine ⟨datagram, ?_⟩
  intro h
  obtain ⟨q, -, -, hq, -⟩ := h t _ ht hlog _ (List.mem_singleton_self _) 0 none ⟨rfl, rfl⟩
  cases hq

end UnixTasks.Udp
