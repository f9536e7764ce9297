import UnixTasks.Udp.Server

/-!
# The datagrams of the UDP clients

What arrives at the master is a text and perhaps more after its end.  An id is nine characters; the master registers
the number that `atoi` reads from them and looks the same number up for every message.

* (`Msg`) the datagrams of clients;
* (`decypher_eq`) a message is taken apart into the id and the payload;
* (`step_connect`, `step_data`, `step_hello`) one round of the master.
-/

namespace UnixTasks.Udp

open CChar CString

/-- A datagram that the clients send.  An id is nine characters; `tail` is what the datagram has after its text. -/
inductive Msg where
  | hello (tail : List CChar)
  | connect (id tail : List CChar)
  | data (id payload tail : List CChar)
  deriving DecidableEq, Repr

def Msg.datagram : Msg → List CChar
  | .hello tail => Udp.hello ++ tail
  | .connect id tail => Udp.connect ++ id ++ tail
  | .data id payload tail => id ++ payload ++ tail

/-- The client that a message is from. -/
def Msg.client : Msg → Option (List CChar)
  | .hello _ => none
  | .connect id _ | .data id _ _ => some id

/-- The text of the datagram ends where its bytes end, or in a NUL. -/
def NulTail (tail : List CChar) : Prop := ∀ c ∈ tail.head?, c = 0

instance (tail : List CChar) : Decidable (NulTail tail) := inferInstanceAs (Decidable (∀ c ∈ tail.head?, c = 0))

/-- The nine characters of an id that `atoi` reads as neither 0 nor -1. -/
def IdOk (id : List CChar) : Prop := id.length = idSz - 1 ∧ atoi id ≠ 0 ∧ atoi id ≠ -1

instance (id : List CChar) : Decidable (IdOk id) := inferInstanceAs (Decidable (_ ∧ _ ∧ _))

/-- The message has a good id and its payload, a string, fits the buffers. -/
def Msg.WellFormed : Msg → Prop
  | .hello tail => NulTail tail
  | .connect id tail => IdOk id ∧ NulTail tail
  | .data id payload tail => IdOk id ∧ 0 ∉ payload ∧ payload.length < bufSz ∧ NulTail tail

instance : ∀ m : Msg, Decidable m.WellFormed
  | .hello tail => inferInstanceAs (Decidable (NulTail tail))
  | .connect _ _ => inferInstanceAs (Decidable (_ ∧ _))
  | .data _ _ _ => inferInstanceAs (Decidable (_ ∧ _ ∧ _ ∧ _))

/-- `recvfrom` leaves the text of the datagram and at least one NUL. -/
theorem receive_append {s tail : List CChar} (hs : s.length < bufSz + idSz) (ht : NulTail tail) :
    ∃ t, receive (s ++ tail) = s ++ 0 :: t := by
  obtain ⟨k, hk⟩ : ∃ k, bufSz + idSz - s.length = k + 1 := ⟨bufSz + idSz - s.length - 1, by omega⟩
  unfold receive padded
  rw [List.take_append, List.take_of_length_le (by omega), hk]
  cases tail with
  | nil =>
    refine ⟨zeros k, ?_⟩
    rw [List.take_nil, List.append_nil, hk]
    rfl
  | cons c tail =>
    obtain rfl : c = 0 := ht c rfl
    rw [List.take_succ_cons, List.append_assoc]
    exact ⟨_, rfl⟩

/-- The text of a connect. -/
private theorem cstr_connect {id tail : List CChar} (hid : id.length = idSz - 1) (ht : NulTail tail) :
    cstr (receive (Msg.connect id tail).datagram) = Udp.connect ++ cstr id := by
  have hlen : (Udp.connect ++ id).length < bufSz + idSz := by
    rw [List.length_append, hid]
    decide
  obtain ⟨t, hbuf⟩ := receive_append hlen ht
  rw [Msg.datagram, hbuf, cstr_append_nul', cstr_append (by decide)]

/-- A connect is not taken for a broadcast. -/
theorem strcmp_hello_connect {id tail : List CChar} (hid : id.length = idSz - 1) (ht : NulTail tail) :
    strcmp (receive (Msg.connect id tail).datagram) Udp.hello ≠ 0 := by
  intro h
  have heq := congrArg List.length (strcmp_eq_zero_iff.1 h)
  rw [cstr_connect hid ht, List.length_append] at heq
  have hshort : (cstr Udp.hello).length < Udp.connect.length := by decide
  omega

theorem strncmp_connect {id tail : List CChar} (hid : id.length = idSz - 1) (ht : NulTail tail) :
    strncmp Udp.connect.length (receive (Msg.connect id tail).datagram) Udp.connect = 0 := by
  rw [strncmp_eq_zero_iff, cstr_connect hid ht, List.take_left]
  decide

/-- `com_connect` reads the id: the ten characters that it copies are the nine of the id and a NUL. -/
theorem atoi_connect {id tail : List CChar} (hid : id.length = idSz - 1) (ht : NulTail tail) :
    atoi (strncpy (zeros bufSz) ((receive (Msg.connect id tail).datagram).drop Udp.connect.length) idSz) = atoi id := by
  have hlen : (Udp.connect ++ id).length < bufSz + idSz := by
    rw [List.length_append, hid]
    decide
  obtain ⟨t, hbuf⟩ := receive_append hlen ht
  have hshort := length_cstr_le id
  rw [Msg.datagram, hbuf, List.append_assoc, List.drop_left, strncpy_zeros _ (by decide), cstr_append_nul',
    List.take_of_length_le (by omega), atoi_padded (nul_notMem_cstr id), atoi_cstr]

/-- The registered id is the number that `atoi` reads from the nine characters. -/
theorem step_connect (calls : Calls) (s : Master) {id tail : List CChar} (hid : id.length = idSz - 1)
    (ht : NulTail tail) :
    s.step (calls, (Msg.connect id tail).datagram) = some (openSession calls (atoi id) s).1 := by
  have hhello := strcmp_hello_connect hid ht
  have hconnect := strncmp_connect hid ht
  have hatoi := atoi_connect hid ht
  unfold Master.step serverHandler
  simp only [hhello, hconnect, if_false, if_true, comConnect, hatoi, Option.map_some]
  split <;> rfl

/-- An id that is not read as 0 does not begin like one of the commands. -/
private theorem head?_ne_of_atoi {id : List CChar} (hid : atoi id ≠ 0) (hlen : 0 < id.length) (s : List CChar) :
    (id ++ s).head? ≠ some (chr '!') := by
  obtain ⟨c, r, rfl⟩ := List.exists_cons_of_length_pos hlen
  intro h
  obtain rfl : c = chr '!' := by simpa using h
  exact hid (atoi_cons_eq_zero r (by decide) (by decide) (by decide) (by decide))

/-- `decypher` takes the id and the payload apart. -/
theorem decypher_eq {id payload : List CChar} (hid : id.length = idSz - 1) (hnul : 0 ∉ payload)
    (hpayload : payload.length < bufSz) (t : List CChar) :
    decypher (id ++ (payload ++ 0 :: t)) = some (atoi id, padded bufSz (cstr id), padded bufSz payload) := by
  have hatoi : strncpy (zeros bufSz) (id ++ (payload ++ 0 :: t)) (idSz - 1) = padded bufSz (cstr id) := by
    rw [strncpy_zeros _ (by decide), ← hid, take_cstr_append]
  have hcopy : strcpy (zeros bufSz) (payload ++ 0 :: t) = some (padded bufSz payload) := by
    rw [strcpy_zeros (by simp) (by rwa [cstr_append_nul hnul]), cstr_append_nul hnul]
  have hnum : atoi (padded bufSz (cstr id)) = atoi id := by
    rw [atoi_padded (nul_notMem_cstr id), atoi_cstr]
  unfold decypher
  rw [hatoi, ← hid, List.drop_left, hcopy]
  simp only [Option.map_some, hnum]

/-- What the master has in its buffer after a message. -/
private theorem receive_data {id payload tail : List CChar} (hm : (Msg.data id payload tail).WellFormed) :
    ∃ t, receive (Msg.data id payload tail).datagram = id ++ (payload ++ 0 :: t) := by
  obtain ⟨⟨hid, -, -⟩, -, hpayload, ht⟩ := hm
  have hlen : (id ++ payload).length < bufSz + idSz := by
    rw [List.length_append, hid]
    unfold idSz
    omega
  obtain ⟨t, hbuf⟩ := receive_append hlen ht
  exact ⟨t, by rw [Msg.datagram, hbuf, List.append_assoc]⟩

private theorem head?_receive_data {id payload tail : List CChar} (hm : (Msg.data id payload tail).WellFormed) :
    (receive (Msg.data id payload tail).datagram).head? ≠ some (chr '!') := by
  obtain ⟨t, hbuf⟩ := receive_data hm
  rw [hbuf]
  exact head?_ne_of_atoi hm.1.2.1 (by rw [hm.1.1]; decide) (payload ++ 0 :: t)

/-- A message is not taken for a broadcast. -/
theorem strcmp_hello_data {id payload tail : List CChar} (hm : (Msg.data id payload tail).WellFormed) :
    strcmp (receive (Msg.data id payload tail).datagram) Udp.hello ≠ 0 := by
  intro h
  have heq := congrArg List.head? (strcmp_eq_zero_iff.1 h)
  exact head?_receive_data hm (head?_of_head?_cstr heq)

/-- A message is not taken for a connect. -/
theorem strncmp_connect_data {id payload tail : List CChar} (hm : (Msg.data id payload tail).WellFormed) :
    strncmp Udp.connect.length (receive (Msg.data id payload tail).datagram) Udp.connect ≠ 0 := by
  intro h
  have heq := congrArg List.head? (strncmp_eq_zero_iff.1 h)
  rw [List.head?_take, List.head?_take, if_neg (by decide)] at heq
  exact head?_receive_data hm (head?_of_head?_cstr heq)

theorem decypher_data {id payload tail : List CChar} (hm : (Msg.data id payload tail).WellFormed) :
    decypher (receive (Msg.data id payload tail).datagram) =
      some (atoi id, padded bufSz (cstr id), padded bufSz payload) := by
  obtain ⟨t, hbuf⟩ := receive_data hm
  rw [hbuf, decypher_eq hm.1.1 hm.2.1 hm.2.2.1]

/-- The master looks up the number that it has registered for the id, and passes on the payload. -/
theorem step_data (calls : Calls) (s : Master) {id payload tail : List CChar}
    (hm : (Msg.data id payload tail).WellFormed) :
    s.step (calls, (Msg.data id payload tail).datagram) =
      some (deliver calls (atoi id) (padded bufSz payload) s).1 := by
  have hhello := strcmp_hello_data hm
  have hconnect := strncmp_connect_data hm
  have hdecypher := decypher_data hm
  unfold Master.step serverHandler
  simp only [hhello, hconnect, if_false, masterHandler, hdecypher, Option.map_some]
  split <;> rfl

theorem step_hello (s : Master) {tail : List CChar} (ht : NulTail tail) :
    s.step (.ok, (Msg.hello tail).datagram) = some { s with log := s.log ++ [.answer] } := by
  obtain ⟨t, hbuf⟩ := receive_append (s := Udp.hello) (by decide) ht
  have hhello : strcmp (receive (Msg.hello tail).datagram) Udp.hello = 0 := by
    rw [strcmp_eq_zero_iff, Msg.datagram, hbuf, cstr_append_nul']
  unfold Master.step serverHandler
  simp [hhello, Calls.ok]

end UnixTasks.Udp
