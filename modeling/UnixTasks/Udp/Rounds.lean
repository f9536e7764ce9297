import UnixTasks.Udp.Registry

/-!
# One round of the master on any datagram

What the master may do on a datagram of any content, with any outcome of its system calls.

* (`connectedId`, `messageOf`) how the datagram is read: as a connect or as a message of a client;
* (`openSession_cases`, `deliver_cases`) what a connect and a message can change;
* (`step_cases`) every round is an answer to a broadcast, a connect or a message.
-/

namespace UnixTasks.Udp

open CChar CString

/-- The number that a connect registers. -/
def connectedId (datagram : List CChar) : Option Int :=
  let buffer := receive datagram
  if strcmp buffer hello = 0 then none
  else if strncmp connect.length buffer connect = 0 then
    some (atoi (strncpy (zeros bufSz) (buffer.drop connect.length) idSz))
  else none

/-- The number and the payload of a message: what `decypher` makes of a datagram that is no command. -/
def messageOf (datagram : List CChar) : Option (Int × List CChar) :=
  let buffer := receive datagram
  if strcmp buffer hello = 0 then none
  else if strncmp connect.length buffer connect = 0 then none
  else (decypher buffer).map fun (id, _, bufferWithoutPid) => (id, bufferWithoutPid)

section Rounds

variable {calls : Calls} {id : Int} {payload datagram : List CChar} {s s' : Master}

/-- A connect finds no slot, or takes the first one that is free or has the id; then it makes a pipe, unless `pipe`
fails. -/
theorem openSession_cases (calls : Calls) (id : Int) (s : Master) :
    ((openSession calls id s).1 = { s with num := -1 } ∧ ∀ m ∈ s.mas, m ≠ 0 ∧ m ≠ id) ∨
      ∃ k : Nat, k < s.mas.length ∧ (s.mas[k]? = some 0 ∨ s.mas[k]? = some id) ∧ TakenBelow id s.mas k ∧
        ((calls.pipe = false ∧ (openSession calls id s).1 = { s with num := k, mas := s.mas.set k id }) ∨
        (calls.pipe = true ∧ ∃ forked : List Event, (∀ e ∈ forked, e = .fork k) ∧ (openSession calls id s).1 = { s with
          num := k
          mas := s.mas.set k id
          dataPipe := Function.update s.dataPipe k (some s.pipes)
          pipes := s.pipes + 1
          log := s.log ++ .pipe k s.pipes id :: forked })) := by
  rcases connectId_spec id s.mas with ⟨heq, hall⟩ | ⟨k, hk, heq, hslot, hbelow⟩
  · exact .inl ⟨by simp [openSession, heq], hall⟩
  · right
    have hpos : ¬ ((k : Int) < 0) := by omega
    refine ⟨k, hk, hslot, hbelow, ?_⟩
    cases hpipe : calls.pipe with
    | false =>
      left
      simp [openSession, heq, hpos, hpipe]
    | true =>
      right
      refine ⟨rfl, if calls.fork then [.fork k] else [], ?_, ?_⟩
      · split <;> simp
      · cases hfork : calls.fork <;> simp [openSession, heq, hpos, hpipe, hfork]

/-- The event is a write to the pipe `p` of the slot `n`, or a close of one of its ends. -/
def Event.uses (n : Int) (p : Option Nat) : Event → Prop
  | .write m q _ | .close m q _ => m = n ∧ q = p
  | _ => False

/-- A message finds no slot, or it goes to the first slot with its id.  At its end the session closes the pipe; the
slot is free if both ends could be closed. -/
theorem deliver_cases (calls : Calls) (id : Int) (payload : List CChar) (s : Master) :
    ((deliver calls id payload s).1 = s ∨ (deliver calls id payload s).1 = { s with num := -1 }) ∨
      ∃ k : Nat, k < s.mas.length ∧ s.mas[k]? = some id ∧ ∃ new : List Event,
        (∀ e ∈ new, e.uses k (s.dataPipe k)) ∧
        (((∀ m p b, .close m p b ∉ new) ∧
          (deliver calls id payload s).1 = { s with num := k, log := s.log ++ new }) ∨
        (calls.closeRead = true ∧ calls.closeWrite = false ∧
          (deliver calls id payload s).1 = { s with num := k, log := s.log ++ new }) ∨
        (deliver calls id payload s).1 = { s with num := k, mas := s.mas.set k 0, log := s.log ++ new }) := by
  by_cases hid : id = -1
  · left; left
    simp [deliver, hid]
  · rcases find_spec id s.mas with ⟨heq, -⟩ | ⟨k, hk, heq, hslot, -⟩
    · left; right
      simp [deliver, hid, heq]
    · right
      have hpos : ¬ ((k : Int) < 0) := by omega
      refine ⟨k, hk, hslot, ?_⟩
      cases hwrite : calls.write with
      | false => exact ⟨[], by simp, .inl ⟨by simp, by simp [deliver, hid, heq, hpos, hwrite]⟩⟩
      | true =>
        by_cases hquit : strncmp (quit.length + 1) payload quit = 0
        · cases hr : calls.closeRead with
          | false =>
            refine ⟨[.write k (s.dataPipe k) payload], by simp [Event.uses], .inl ⟨by simp, ?_⟩⟩
            simp [deliver, closeSession, hid, heq, hpos, hwrite, hquit, hr]
          | true =>
            cases hw : calls.closeWrite with
            | false =>
              refine ⟨[.write k (s.dataPipe k) payload, .close k (s.dataPipe k) true], by simp [Event.uses],
                .inr (.inl ⟨rfl, rfl, ?_⟩)⟩
              simp [deliver, closeSession, hid, heq, hpos, hwrite, hquit, hr, hw]
            | true =>
              refine ⟨[.write k (s.dataPipe k) payload, .close k (s.dataPipe k) true, .close k (s.dataPipe k) false],
                by simp [Event.uses], .inr (.inr ?_)⟩
              simp [deliver, closeSession, hid, heq, hpos, hwrite, hquit, hr, hw]
        · refine ⟨[.write k (s.dataPipe k) payload], by simp [Event.uses], .inl ⟨by simp, ?_⟩⟩
          simp [deliver, hid, heq, hpos, hwrite, hquit]

/-- `server_handler` reports a failure of a handler, and nothing else happens. -/
private theorem fst_ret (c : Prop) [Decidable c] (s : Master) : (if c then (s, (-1 : Int)) else (s, 0)).1 = s := by
  split <;> rfl

/-- What a round does, by what its datagram is. -/
theorem step_cases (hs : s.step (calls, datagram) = some s') :
    (connectedId datagram = none ∧ messageOf datagram = none ∧ (s' = s ∨ s' = { s with log := s.log ++ [.answer] })) ∨
    (∃ id, connectedId datagram = some id ∧ messageOf datagram = none ∧ s' = (openSession calls id s).1) ∨
    ∃ id payload, connectedId datagram = none ∧ messageOf datagram = some (id, payload) ∧
      s' = (deliver calls id payload s).1 := by
  unfold Master.step serverHandler at hs
  unfold connectedId messageOf
  by_cases hhello : strcmp (receive datagram) hello = 0
  · left
    simp only [hhello, if_true, Option.map_some, Option.some.injEq, true_and] at hs ⊢
    split at hs
    · exact .inl hs.symm
    · exact .inr hs.symm
  · simp only [hhello, if_false] at hs ⊢
    by_cases hconnect : strncmp connect.length (receive datagram) connect = 0
    · right; left
      simp only [hconnect, if_true, Option.map_some, Option.some.injEq, comConnect] at hs ⊢
      exact ⟨_, rfl, trivial, hs.symm.trans (fst_ret _ _)⟩
    · right; right
      simp only [hconnect, if_false, masterHandler, Option.map_map, Option.map_eq_some_iff] at hs ⊢
      obtain ⟨⟨id, myIpStr, payload⟩, hdecypher, hs⟩ := hs
      simp only [Function.comp_apply, fst_ret] at hs
      exact ⟨id, payload, trivial, ⟨_, hdecypher, rfl⟩, hs.symm⟩

/-- A connect is never refused by the master. -/
theorem step_of_connectedId (calls : Calls) (s : Master) (h : connectedId datagram = some id) :
    s.step (calls, datagram) = some (openSession calls id s).1 := by
  unfold connectedId at h
  simp only at h
  split at h
  · cases h
  · rename_i hhello
    split at h
    · rename_i hconnect
      obtain rfl := Option.some.inj h
      unfold Master.step serverHandler
      simp only [hhello, hconnect, if_false, if_true, comConnect, Option.map_some]
      exact congrArg some (fst_ret _ _)
    · cases h

end Rounds

end UnixTasks.Udp
