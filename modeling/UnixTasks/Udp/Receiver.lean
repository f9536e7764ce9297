import UnixTasks.Udp.Client

/-!
# client.c: from the server to the standard output

The child of the server encrypts a buffer and sends it.  One process of the client takes datagrams from the socket and
writes them to a pipe; the other one reads the pipe, decrypts, and writes to the standard output.  Datagrams are neither
lost nor reordered, and every system call succeeds.

`receiver` sees that it has received nothing from the first byte of its buffer, so a buffer whose first byte is the key
is taken for nothing.

* (`Relay.step`) one send, one pass of `receiver`, one pass of `read_receiver`;
* (`Relay.Inv`) what is on its way, and what has been written;
* (`relay_step`, `relay_run`) every run keeps it;
* (`Relay.Inv.exists_drained`) every run can be continued until nothing is on its way;
* (`written_iff`) exactly the runs in which everything arrives.
-/

namespace UnixTasks.Udp

open CChar CString ActionSystem

/-- The datagrams and the bytes on their way to the client, what its second process has written, and what the child of
the server has passed to `send_info`. -/
structure Relay where
  net : List (List CChar)
  dataPipe : List CChar
  stdout : List (List CChar)
  sent : List (List CChar)

inductive Relay.Action where
  /-- `send_info` with this buffer. -/
  | sendInfo (buffer : List CChar)
  /-- One pass of the loop of `receiver`. -/
  | receiver
  /-- One pass of the loop of `read_receiver`, when `poll` reports that the pipe can be read. -/
  | readReceiver

/-- `buffer_rec` after `recvfrom`, which does not wait. -/
def bufferRec (net : List (List CChar)) : List CChar := padded bufSz ((net.headD []).take bufSz)

def Relay.step (K : CChar) (s : Relay) : Relay.Action → Option Relay
  | .sendInfo buffer =>
    if buffer.length = bufSz then some { s with net := s.net ++ [crypto K buffer], sent := s.sent ++ [buffer] }
    else none
  | .receiver =>
    if (bufferRec s.net).headD 0 = 0 then some { s with net := s.net.tail }
    else some { s with net := s.net.tail, dataPipe := s.dataPipe ++ bufferRec s.net }
  | .readReceiver =>
    if s.dataPipe = [] then none
    else some { s with
      dataPipe := s.dataPipe.drop bufSz
      stdout := s.stdout ++ [crypto K (padded bufSz (s.dataPipe.take bufSz))] }

/-- Nothing has been sent yet. -/
def Relay.start : Relay := ⟨[], [], [], []⟩

/-- The first byte of the buffer is not the key. -/
def Passes (K : CChar) (buffer : List CChar) : Prop := buffer.head? ≠ some K

instance (K : CChar) (buffer : List CChar) : Decidable (Passes K buffer) := inferInstanceAs (Decidable (_ ≠ _))

/-- The buffers of `inNet` are in the network and those of `inPipe` in the pipe; what has been written and what is still
on its way are the buffers sent, without those that are taken for nothing. -/
structure Relay.Inv (K : CChar) (inNet inPipe : List (List CChar)) (s : Relay) : Prop where
  net : s.net = inNet.map (crypto K)
  dataPipe : s.dataPipe = (inPipe.map (crypto K)).flatten
  full : ∀ buffer ∈ inNet ++ inPipe, buffer.length = bufSz
  written : s.stdout ++ inPipe ++ inNet.filter (Passes K ·) = s.sent.filter (Passes K ·)

section Steps

variable {K : CChar} {buffer : List CChar} {inNet inPipe : List (List CChar)} {s t : Relay}

private theorem bufferRec_nil : (bufferRec []).headD 0 = 0 := by decide

private theorem bufferRec_cons {datagram : List CChar} (h : datagram.length = bufSz) (net : List (List CChar)) :
    bufferRec (datagram :: net) = datagram := by
  rw [bufferRec, List.headD_cons, List.take_of_length_le (by omega), padded, h, Nat.sub_self]
  exact List.append_nil datagram

private theorem headD_crypto (h : buffer.length = bufSz) : (crypto K buffer).headD 0 = 0 ↔ ¬ Passes K buffer := by
  rw [crypto_eq_map h, Passes, not_not]
  cases buffer with
  | nil => exact absurd h (by decide)
  | cons c buffer => simp

/-- The reader takes the first buffer in the pipe. -/
private theorem take_flatten (h : buffer.length = bufSz) :
    crypto K (padded bufSz (((buffer :: inPipe).map (crypto K)).flatten.take bufSz)) = buffer ∧
      ((buffer :: inPipe).map (crypto K)).flatten.drop bufSz = (inPipe.map (crypto K)).flatten := by
  have hlen : bufSz = (crypto K buffer).length := by rw [length_crypto, h]
  rw [List.map_cons, List.flatten_cons]
  constructor
  · conv_lhs => enter [2, 2, 1]; rw [hlen]
    rw [List.take_left, padded, ← hlen, Nat.sub_self]
    show crypto K (crypto K buffer ++ []) = buffer
    rw [List.append_nil, crypto_crypto h]
  · conv_lhs => enter [1]; rw [hlen]
    exact List.drop_left

theorem Relay.Inv.dataPipe_eq_nil_iff (h : s.Inv K inNet inPipe) : s.dataPipe = [] ↔ inPipe = [] := by
  rw [h.dataPipe]
  constructor
  · intro hempty
    rw [List.eq_nil_iff_forall_not_mem]
    intro buffer hb
    -- a buffer in the pipe would be 256 bytes of it
    have hnil := List.flatten_eq_nil_iff.1 hempty _ (List.mem_map_of_mem hb)
    rw [← List.length_eq_zero_iff, length_crypto, h.full buffer (List.mem_append_right _ hb)] at hnil
    exact absurd hnil (by decide)
  · rintro rfl
    rfl

theorem Relay.Inv.sendInfo (h : s.Inv K inNet inPipe) (hlen : buffer.length = bufSz) :
    Relay.Inv K (inNet ++ [buffer]) inPipe
      { s with net := s.net ++ [crypto K buffer], sent := s.sent ++ [buffer] } where
  net := by rw [h.net, List.map_append]; rfl
  dataPipe := h.dataPipe
  full := by
    intro b hb
    have hfull := h.full b
    simp only [List.mem_append, List.mem_singleton] at hb hfull
    rcases hb with (hb | rfl) | hb
    · exact hfull (.inl hb)
    · exact hlen
    · exact hfull (.inr hb)
  written := by
    have hwritten := h.written
    rw [List.filter_append, List.filter_append, ← hwritten, List.append_assoc (_ ++ _)]

/-- A pass of `receiver` moves the next buffer into the pipe, or drops it. -/
theorem Relay.Inv.receiver (h : s.Inv K inNet inPipe) (ht : s.step K .receiver = some t) :
    ∃ inNet' inPipe', t.Inv K inNet' inPipe' ∧ inNet' = inNet.tail ∧ t.sent = s.sent := by
  cases inNet with
  | nil =>
    have hnet : s.net = [] := h.net
    rw [Relay.step, hnet, if_pos bufferRec_nil] at ht
    obtain rfl := Option.some.inj ht
    exact ⟨[], inPipe, ⟨rfl, h.dataPipe, h.full, h.written⟩, rfl, rfl⟩
  | cons buffer inNet =>
    have hlen : buffer.length = bufSz := h.full buffer (by simp)
    have hfull : ∀ b ∈ inNet ++ inPipe, b.length = bufSz := fun b hb => h.full b (List.mem_cons_of_mem _ hb)
    have hnet : s.net = crypto K buffer :: inNet.map (crypto K) := h.net
    have hwritten := h.written
    rw [Relay.step, hnet, bufferRec_cons (by rw [length_crypto, hlen]), List.tail_cons] at ht
    by_cases hpass : Passes K buffer
    · rw [if_neg (mt (headD_crypto hlen).1 (not_not.2 hpass))] at ht
      obtain rfl := Option.some.inj ht
      refine ⟨inNet, inPipe ++ [buffer], ⟨rfl, ?_, ?_, ?_⟩, rfl, rfl⟩
      · rw [h.dataPipe, List.map_append, List.flatten_append]
        simp
      · intro b hb
        refine h.full b ?_
        simp only [List.mem_append, List.mem_cons] at hb ⊢
        tauto
      · rw [List.filter_cons_of_pos (by simpa using hpass)] at hwritten
        simpa using hwritten
    · rw [if_pos ((headD_crypto hlen).2 hpass)] at ht
      obtain rfl := Option.some.inj ht
      refine ⟨inNet, inPipe, ⟨rfl, h.dataPipe, hfull, ?_⟩, rfl, rfl⟩
      rwa [List.filter_cons_of_neg (by simpa using hpass)] at hwritten

/-- A pass of `read_receiver` writes the next buffer in the pipe. -/
theorem Relay.Inv.readReceiver (h : s.Inv K inNet inPipe) (ht : s.step K .readReceiver = some t) :
    ∃ buffer inPipe', inPipe = buffer :: inPipe' ∧ t.Inv K inNet inPipe' ∧ t.sent = s.sent := by
  cases inPipe with
  | nil =>
    rw [Relay.step, if_pos (h.dataPipe_eq_nil_iff.2 rfl)] at ht
    cases ht
  | cons buffer inPipe =>
    have hlen : buffer.length = bufSz := h.full buffer (by simp)
    obtain ⟨htake, hdrop⟩ := @take_flatten K buffer inPipe hlen
    rw [← h.dataPipe] at htake hdrop
    have hne : s.dataPipe ≠ [] := mt h.dataPipe_eq_nil_iff.1 (by simp)
    rw [Relay.step, if_neg hne, htake, hdrop] at ht
    obtain rfl := Option.some.inj ht
    refine ⟨buffer, inPipe, rfl, ⟨h.net, rfl, ?_, ?_⟩, rfl⟩
    · intro b hb
      refine h.full b ?_
      simp only [List.mem_append, List.mem_cons] at hb ⊢
      tauto
    · have hwritten := h.written
      simpa using hwritten

theorem relay_step {a : Relay.Action} (h : ∃ inNet inPipe, s.Inv K inNet inPipe) (ht : s.step K a = some t) :
    ∃ inNet inPipe, t.Inv K inNet inPipe := by
  obtain ⟨inNet, inPipe, h⟩ := h
  cases a with
  | sendInfo buffer =>
    rw [Relay.step] at ht
    split at ht
    · rename_i hlen
      obtain rfl := Option.some.inj ht
      exact ⟨_, _, h.sendInfo hlen⟩
    · cases ht
  | receiver =>
    obtain ⟨inNet', inPipe', ht, -, -⟩ := h.receiver ht
    exact ⟨inNet', inPipe', ht⟩
  | readReceiver =>
    obtain ⟨-, inPipe', -, ht, -⟩ := h.readReceiver ht
    exact ⟨inNet, inPipe', ht⟩

/-- Whatever is on its way can be taken from the network, read from the pipe and written. -/
theorem Relay.Inv.exists_drained (h : s.Inv K inNet inPipe) :
    ∃ as t, run (Relay.step K) s as = some t ∧ t.net = [] ∧ t.dataPipe = [] ∧ t.sent = s.sent := by
  induction inNet generalizing inPipe s with
  | nil =>
    induction inPipe generalizing s with
    | nil => exact ⟨[], s, rfl, h.net, h.dataPipe, rfl⟩
    | cons buffer inPipe ih =>
      have hne : s.dataPipe ≠ [] := mt h.dataPipe_eq_nil_iff.1 (by simp)
      obtain ⟨t, ht⟩ : ∃ t, s.step K .readReceiver = some t := ⟨_, if_neg hne⟩
      obtain ⟨buffer', inPipe', heq, hinv, hsent⟩ := h.readReceiver ht
      cases heq
      obtain ⟨as, u, hrun, hnet, hpipe, husent⟩ := ih hinv
      exact ⟨.readReceiver :: as, u, run_cons_eq_some.2 ⟨t, ht, hrun⟩, hnet, hpipe, husent.trans hsent⟩
  | cons buffer inNet ih =>
    obtain ⟨t, ht⟩ : ∃ t, s.step K .receiver = some t := by
      rw [Relay.step]
      split
      · exact ⟨_, rfl⟩
      · exact ⟨_, rfl⟩
    obtain ⟨inNet', inPipe', hinv, rfl, hsent⟩ := h.receiver ht
    obtain ⟨as, u, hrun, hnet, hpipe, husent⟩ := ih hinv
    exact ⟨.receiver :: as, u, run_cons_eq_some.2 ⟨t, ht, hrun⟩, hnet, hpipe, husent.trans hsent⟩

end Steps

theorem relay_run {K : CChar} {as : List Relay.Action} {t : Relay} (hrun : run (Relay.step K) .start as = some t) :
    ∃ inNet inPipe, t.Inv K inNet inPipe :=
  run_invariant (fun _ _ _ h ht => relay_step h ht) ⟨[], [], ⟨rfl, rfl, by simp, rfl⟩⟩ hrun

/-- For every key and every sequence of buffers, in whatever order the processes move: when nothing is on its way any
more, the client has written exactly the buffers that were sent, if and only if none of them begins with the key. -/
theorem written_iff (K : CChar) (as : List Relay.Action) (t : Relay) (hrun : run (Relay.step K) .start as = some t)
    (hnet : t.net = []) (hpipe : t.dataPipe = []) : t.stdout = t.sent ↔ ∀ buffer ∈ t.sent, Passes K buffer := by
  obtain ⟨inNet, inPipe, h⟩ := relay_run hrun
  have hnet' : inNet = [] := List.map_eq_nil_iff.1 (h.net.symm.trans hnet)
  have hpipe' : inPipe = [] := h.dataPipe_eq_nil_iff.1 hpipe
  have hwritten := h.written
  rw [hnet', hpipe', List.append_nil, List.filter_nil, List.append_nil] at hwritten
  rw [hwritten, List.filter_eq_self]
  simp

/-- The key is 'a', and a buffer that begins with 'x' is sent. -/
theorem written_iff_one : ∃ t,
    run (Relay.step (chr 'a')) .start [.sendInfo (padded bufSz [chr 'x']), .receiver, .readReceiver] = some t ∧
      (t.stdout = t.sent ↔ ∀ buffer ∈ t.sent, Passes (chr 'a') buffer) := by
  have hrun : (run (Relay.step (chr 'a')) .start [.sendInfo (padded bufSz [chr 'x']), .receiver, .readReceiver]).map
      (fun t => (t.net, t.dataPipe)) = some ([], []) := by
    decide +kernel
  obtain ⟨t, ht, hempty⟩ := Option.map_eq_some_iff.1 hrun
  obtain ⟨hnet, hpipe⟩ := Prod.mk.inj hempty
  exact ⟨t, ht, written_iff _ _ t ht hnet hpipe⟩

/-- With the same key "abc" is sent, and never written. -/
theorem not_written : ∃ t,
    run (Relay.step (chr 'a')) .start [.sendInfo (padded bufSz (['a', 'b', 'c'].map chr)), .receiver] = some t ∧
      t.net = [] ∧ t.dataPipe = [] ∧ t.stdout ≠ t.sent := by
  have hrun : (run (Relay.step (chr 'a')) .start [.sendInfo (padded bufSz (['a', 'b', 'c'].map chr)), .receiver]).map
      (fun t => (t.net, t.dataPipe, t.stdout, t.sent.length)) = some ([], [], [], 1) := by
    decide +kernel
  obtain ⟨t, ht, hempty⟩ := Option.map_eq_some_iff.1 hrun
  simp only [Prod.mk.injEq] at hempty
  obtain ⟨hnet, hpipe, hstdout, hsent⟩ := hempty
  refine ⟨t, ht, hnet, hpipe, ?_⟩
  intro heq
  rw [← heq, hstdout] at hsent
  exact absurd hsent (by decide)

end UnixTasks.Udp
