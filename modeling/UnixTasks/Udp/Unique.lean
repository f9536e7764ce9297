import UnixTasks.Udp.Messages
import UnixTasks.Udp.Rounds

/-!
# No client has two slots

`connect_id` takes the first slot that is free or has the id, whichever comes first.  So a client that connects again
gets a second slot as soon as another client has left a free slot below its own.

* (`Unique`) no nonzero id is in two slots;
* (`NoFreeBelow`) the condition on a round: a client with a slot does not connect while a slot below it is free;
* (`unique_connect`, `unique_step`) a round that meets it keeps the ids unique, and a connect that does not meet it
  doubles an id;
* (`unique_iff`) exactly the runs in which the ids stay unique.
-/

namespace UnixTasks.Udp

open CChar CString ActionSystem

/-- No nonzero id occupies two slots. -/
def Unique (mas : List Int) : Prop := ∀ (i j : Nat) (id : Int), id ≠ 0 → mas[i]? = some id → mas[j]? = some id → i = j

/-- A client that has a slot does not connect while a slot below it is free. -/
def NoFreeBelow (s : Master) (round : Calls × List CChar) : Prop :=
  ∀ id ∈ connectedId round.2, id ≠ 0 → ∀ k : Nat, s.mas[k]? = some id → ∀ j < k, s.mas[j]? ≠ some 0

section Rounds

variable {calls : Calls} {id : Int} {datagram : List CChar} {mas : List Int} {s s' : Master}

/-- A slot that becomes free. -/
theorem Unique.free (h : Unique mas) (k : Nat) : Unique (mas.set k 0) := by
  intro i j id hid hi hj
  exact h i j id hid (getElem?_of_set_zero hid hi).2 (getElem?_of_set_zero hid hj).2

/-- A slot that is taken, and no other slot has the id. -/
theorem Unique.take (h : Unique mas) {k : Nat} (halone : id ≠ 0 → ∀ n : Nat, mas[n]? = some id → n = k) :
    Unique (mas.set k id) := by
  intro i j id' hid' hi hj
  by_cases hown : id' = id
  · subst hown
    have hk : ∀ n : Nat, (mas.set k id')[n]? = some id' → n = k := by
      intro n hn
      rcases getElem?_set_cases hn with ⟨hnk, -⟩ | ⟨-, hn⟩
      · exact hnk
      · exact halone hid' n hn
    rw [hk i hi, hk j hj]
  · have hne : ∀ n : Nat, (mas.set k id)[n]? = some id' → mas[n]? = some id' := by
      intro n hn
      rcases getElem?_set_cases hn with ⟨-, hnew⟩ | ⟨-, hn⟩
      · exact absurd hnew hown
      · exact hn
    exact h i j id' hid' (hne i hi) (hne j hj)

private theorem openSession_mas (calls : Calls) (id : Int) (s : Master) :
    ((openSession calls id s).1.mas = s.mas ∧ ∀ m ∈ s.mas, m ≠ 0 ∧ m ≠ id) ∨ ∃ k : Nat, k < s.mas.length ∧
      (s.mas[k]? = some 0 ∨ s.mas[k]? = some id) ∧ TakenBelow id s.mas k ∧
      (openSession calls id s).1.mas = s.mas.set k id := by
  rcases openSession_cases calls id s with ⟨heq, hall⟩ | ⟨k, hk, hslot, hbelow, ⟨-, heq⟩ | ⟨-, forked, -, heq⟩⟩
  · exact .inl ⟨by rw [heq], hall⟩
  · exact .inr ⟨k, hk, hslot, hbelow, by rw [heq]⟩
  · exact .inr ⟨k, hk, hslot, hbelow, by rw [heq]⟩

/-- A connect keeps the ids unique if and only if it meets the condition. -/
theorem unique_connect (calls : Calls) (h : Unique s.mas) (hconnect : connectedId datagram = some id) :
    Unique (openSession calls id s).1.mas ↔ NoFreeBelow s (calls, datagram) := by
  have hcond : NoFreeBelow s (calls, datagram) ↔
      (id ≠ 0 → ∀ k : Nat, s.mas[k]? = some id → ∀ j < k, s.mas[j]? ≠ some 0) := by
    unfold NoFreeBelow
    simp [hconnect]
  rw [hcond]
  rcases openSession_mas calls id s with ⟨heq, hall⟩ | ⟨k, hk, hslot, hbelow, heq⟩
  · rw [heq]
    refine iff_of_true h ?_
    intro hid i hi
    exact absurd rfl (hall id (List.mem_of_getElem? hi)).2
  · rw [heq]
    constructor
    · intro hu hid i hi j hj h0
      -- the first free slot is below the slot of the client
      have hkj : k ≤ j := by
        by_contra hlt
        exact (hbelow j (by omega) 0 h0).1 rfl
      have hik : i ≠ k := by omega
      have hi' : (s.mas.set k id)[i]? = some id := by rw [List.getElem?_set_ne (Ne.symm hik), hi]
      exact hik (hu i k id hid hi' (List.getElem?_set_self hk))
    · intro hfree
      refine h.take fun hid n hn => ?_
      by_contra hnk
      rcases Nat.lt_or_gt_of_ne hnk with hlt | hgt
      · exact (hbelow n hlt id hn).2 rfl
      · rcases hslot with h0 | hown
        · exact hfree hid n hn k hgt h0
        · exact hnk (h n k id hid hn hown)

/-- A message keeps the ids unique: it frees a slot or leaves all of them. -/
theorem Unique.deliver (h : Unique s.mas) (calls : Calls) (id : Int) (payload : List CChar) :
    Unique (Udp.deliver calls id payload s).1.mas := by
  rcases deliver_cases calls id payload s with (heq | heq) | ⟨k, -, -, new, -, ⟨-, heq⟩ | ⟨-, -, heq⟩ | heq⟩
  · rwa [heq]
  · rwa [heq]
  · rwa [heq]
  · rwa [heq]
  · rw [heq]
    exact h.free k

/-- One round keeps the ids unique if and only if it meets the condition. -/
theorem unique_step (s : Master) (round : Calls × List CChar) (h : Unique s.mas) :
    NoFreeBelow s round ↔ ∀ t, s.step round = some t → Unique t.mas := by
  obtain ⟨calls, datagram⟩ := round
  constructor
  · intro hcond t ht
    rcases step_cases ht with ⟨-, -, rfl | rfl⟩ | ⟨id, hconnect, -, rfl⟩ | ⟨id, payload, -, -, rfl⟩
    · exact h
    · exact h
    · exact (unique_connect calls h hconnect).2 hcond
    · exact h.deliver calls id payload
  · intro hstep
    cases hconnect : connectedId datagram with
    | none =>
      intro id hid
      rw [hconnect] at hid
      cases hid
    | some id =>
      have ht := hstep _ (step_of_connectedId calls s hconnect)
      exact (unique_connect calls h hconnect).1 ht

end Rounds

/-! ### Whole runs -/

private theorem unique_start : Unique Master.start.mas := by
  intro i j id hid hi
  exact absurd (List.eq_of_mem_replicate (List.mem_of_getElem? hi)) hid

/-- For every sequence of datagrams with any content and any outcome of the system calls: no nonzero id is ever in two
slots if and only if no client that has a slot connects while a slot below it is free. -/
theorem unique_iff (rounds : List (Calls × List CChar)) :
    AllSteps Master.step NoFreeBelow .start rounds ↔
      ∀ pre s, pre <+: rounds → run Master.step .start pre = some s → Unique s.mas := by
  have hstep : ∀ (s : Master) (round : Calls × List CChar) (t : Master), Unique s.mas → NoFreeBelow s round →
      s.step round = some t → Unique t.mas :=
    fun s round t h hcond ht => (unique_step s round h).1 hcond t ht
  have hcongr : AllSteps Master.step NoFreeBelow .start rounds ↔
      AllSteps Master.step (fun s round => ∀ t, s.step round = some t → Unique t.mas) .start rounds :=
    allSteps_congr hstep unique_step unique_start
  have hleads : AllSteps Master.step (fun s round => ∀ t, s.step round = some t → Unique t.mas) .start rounds ↔
      ∀ pre s, pre <+: rounds → run Master.step .start pre = some s → Unique s.mas :=
    allSteps_leads_iff unique_start
  exact hcongr.trans hleads

/-- Two clients connect and the first one quits.  When the second one connects again, it gets the first slot, and has
its own still. -/
theorem connect_twice : ∃ rounds s, run Master.step .start rounds = some s ∧ ¬ Unique s.mas := by
  let one : List CChar := List.replicate 9 (chr '1')
  let two : List CChar := List.replicate 9 (chr '2')
  let rounds : List (Calls × List CChar) := [(.ok, (Msg.connect one []).datagram), (.ok, (Msg.connect two []).datagram),
    (.ok, (Msg.data one quit []).datagram), (.ok, (Msg.connect two []).datagram)]
  have hslots : (run Master.step .start rounds).map (fun s => s.mas.take 2) = some [222222222, 222222222] := by
    decide +kernel
  obtain ⟨s, hs, htake⟩ := Option.map_eq_some_iff.1 hslots
  refine ⟨rounds, s, hs, ?_⟩
  intro h
  have hslot : ∀ n < 2, s.mas[n]? = some 222222222 := by
    intro n hn
    rw [← List.getElem?_take_of_lt hn, htake]
    match n, hn with
    | 0, _ => rfl
    | 1, _ => rfl
  have h01 := h 0 1 222222222 (by decide) (hslot 0 (by omega)) (hslot 1 (by omega))
  exact absurd h01 (by decide)

end UnixTasks.Udp
