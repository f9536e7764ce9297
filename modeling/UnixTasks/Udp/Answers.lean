import Mathlib.Data.List.Flatten
import UnixTasks.Udp.BashWork
import UnixTasks.Udp.Receiver
import UnixTasks.Udp.ShellOutput

/-!
# From a bash to the terminal of the client

The child of the server and the two processes of its client together.  What a bash writes goes through `read_bash`,
`send_info`, `receiver` and `read_receiver` to the standard output of the client, and so does the answer to a command
that is none.  All system calls succeed here, but for a `poll` that a signal interrupts, and datagrams are neither lost
nor doubled nor reordered.

The buffers are filled up with NULs, which a terminal does not show.

* (`Answers.step`) the steps of the child, of a bash, of `receiver` and of `read_receiver`;
* (`Answers.tells`, `said_of_step`) what a step passes to `send_info`;
* (`Answers.Inv`, `answers_step`) what has been said, and where it is;
* (`answers_shown`) the terminal shows everything if and only if no buffer begins with the key.
-/

namespace UnixTasks.Udp.Shell

open CChar CString ActionSystem

/-- The child of the server, and what is between it and the terminal of the client. -/
structure Answers where
  session : Session
  relay : Relay

inductive Answers.Action where
  | session (a : Session.Action)
  | receiver
  | readReceiver

/-- The system calls of the step succeed. -/
def Session.Action.ok : Session.Action → Bool
  | .child (.command _ ok) | .child (.sendInfo ok) => ok
  | .child (.read n) => n.isSome
  | _ => true

/-- `newbuf` of `execution`. -/
def unrecognized (childBuf : List CChar) : List CChar :=
  snprintf2 (zeros bufSz) bufSz ("unrecognized command: ".toList.map chr) (cstr childBuf ++ [10])

/-- What the child passes to `send_info` with its next step. -/
def State.message (s : State) : Action → Option (List CChar)
  | .sendInfo _ =>
    match s.place with
    | .sendInfo _ readbuf => some readbuf
    | _ => none
  | .command childBuf _ => if cmpComm s.bashWork childBuf = .unrecognized then some (unrecognized childBuf) else none
  | _ => none

def Session.message (s : Session) : Session.Action → Option (List CChar)
  | .child a => s.child.message a
  | .fork _ | .shellReturns | .interrupt _ => none

def Answers.step (K : CChar) (s : Answers) : Answers.Action → Option Answers
  | .session a =>
    if a.ok then
      (s.session.step a).bind fun session =>
        match s.session.message a with
        | some buffer => (s.relay.step K (.sendInfo buffer)).map fun relay => ⟨session, relay⟩
        | none => some ⟨session, s.relay⟩
    else none
  | .receiver => (s.relay.step K .receiver).map fun relay => { s with relay := relay }
  | .readReceiver => (s.relay.step K .readReceiver).map fun relay => { s with relay := relay }

def Answers.start : Answers := ⟨.start, .start⟩

/-! ### What is said -/

/-- A buffer that has been passed to `send_info`: a piece of the output of a bash, or the answer to a command. -/
abbrev Said := Sent ⊕ List CChar

def Said.buffer : Said → List CChar
  | .inl e => e.readbuf
  | .inr childBuf => unrecognized childBuf

/-- The bytes that are meant: those that `read` has returned, or the whole answer. -/
def Said.text : Said → List CChar
  | .inl e => e.readbuf.take e.ret
  | .inr childBuf => unrecognized childBuf

/-- What the child says with its next step. -/
def State.tells (s : State) : Action → Option Said
  | .sendInfo _ =>
    match s.fd, s.place with
    | some fd, .sendInfo ret readbuf => some (.inl ⟨fd, ret, readbuf⟩)
    | _, _ => none
  | .command childBuf _ => if cmpComm s.bashWork childBuf = .unrecognized then some (.inr childBuf) else none
  | _ => none

def Session.tells (s : Session) : Session.Action → Option Said
  | .child a => s.child.tells a
  | .fork _ | .shellReturns | .interrupt _ => none

def Answers.tells (s : Answers) : Answers.Action → List Said
  | .session a => (s.session.tells a).toList
  | .receiver | .readReceiver => []

/-- What is said in a run, from the start on. -/
def saidIn (K : CChar) (as : List Answers.Action) : List Said := outputs (Answers.step K) Answers.tells .start as

/-- The pieces among what has been said. -/
def pieces (said : List Said) : List Sent := said.filterMap Sum.getLeft?

/-- What a terminal shows. -/
def visible (bs : List CChar) : List CChar := bs.filter (· ≠ 0)

private theorem visible_append (bs bs' : List CChar) : visible (bs ++ bs') = visible bs ++ visible bs' :=
  List.filter_append ..

private theorem visible_padded (n : Nat) (bs : List CChar) : visible (padded n bs) = visible bs := by
  rw [padded, visible_append]
  simp [visible, zeros]

private theorem visible_ne_nil {K : CChar} (hK : K ≠ 0) {buffer : List CChar} (h : ¬ Passes K buffer) :
    visible buffer ≠ [] := by
  rw [Passes, not_not] at h
  cases buffer with
  | nil => cases h
  | cons c buffer =>
    obtain rfl : c = K := Option.some.inj h
    have hfirst : visible (c :: buffer) = c :: visible buffer := List.filter_cons_of_pos (decide_eq_true hK)
    rw [hfirst]
    exact List.cons_ne_nil _ _

/-- A buffer that is taken for nothing is missed. -/
private theorem visible_filter_iff {K : CChar} (hK : K ≠ 0) (bs : List (List CChar)) :
    visible (bs.filter (Passes K ·)).flatten = visible bs.flatten ↔ ∀ b ∈ bs, Passes K b := by
  induction bs with
  | nil => simp
  | cons b bs ih =>
    by_cases hb : Passes K b
    · rw [List.filter_cons_of_pos (by simpa using hb), List.flatten_cons, List.flatten_cons, visible_append,
        visible_append, List.append_cancel_left_eq, ih, List.forall_mem_cons, and_iff_right hb]
    · rw [List.filter_cons_of_neg (by simpa using hb), List.flatten_cons, visible_append]
      have hless : (visible (bs.filter (Passes K ·)).flatten).length ≤ (visible bs.flatten).length :=
        (List.filter_sublist.flatten.filter _).length_le
      have hpos : 0 < (visible b).length := List.length_pos_of_ne_nil (visible_ne_nil hK hb)
      constructor
      · intro heq
        rw [heq, List.length_append] at hless
        omega
      · intro hall
        exact absurd (hall b (List.mem_cons_self ..)) hb

/-- A buffer of 256 bytes with what `read` has returned, and NULs behind it. -/
structure Piece (ret : Nat) (readbuf : List CChar) : Prop where
  length : readbuf.length = bufSz
  padded : readbuf = padded bufSz (readbuf.take ret)

structure Pieces (s : State) : Prop where
  sent : ∀ e ∈ s.sent, Piece e.ret e.readbuf
  place : ∀ ret readbuf, s.place = .sendInfo ret readbuf → Piece ret readbuf

section Steps

variable {s t : State} {a : Action}

private theorem pieces_of_place (h : Pieces s) (hsent : t.sent = s.sent)
    (hplace : ∀ ret readbuf, t.place ≠ .sendInfo ret readbuf) : Pieces t where
  sent e he := h.sent e (hsent ▸ he)
  place ret readbuf heq := absurd heq (hplace ret readbuf)

private theorem execution_sent (s : State) (ok : Bool) (childBuf : List CChar) :
    (s.execution ok childBuf).sent = s.sent := by
  unfold State.execution State.shell
  split <;> try rfl
  split <;> rfl

private theorem pieces_step (h : Pieces s) (hs : s.step a = some t) : Pieces t := by
  have hmoves := moves_of_step hs
  clear hs
  cases hmoves with
  | @command childBuf ok hidle =>
    refine pieces_of_place h (execution_sent s ok childBuf) fun ret readbuf => ?_
    unfold State.execution State.shell
    split <;> cases ok <;> simp [hidle]
  | nothing hb hplace hopen | pollin hb hplace hopen | pollhup hb hplace hopen | readError hplace =>
    exact pieces_of_place h rfl (by simp)
  | @read fd b n hfd hb hplace hn hle =>
    refine ⟨h.sent, fun ret readbuf heq => ?_⟩
    cases heq
    have htake : (padded bufSz (b.unread.take n)).take n = b.unread.take n := by
      rw [padded, List.take_append_of_le_length (by rw [List.length_take]; omega), List.take_take, Nat.min_self]
    have hlen : (b.unread.take n).length ≤ bufSz := (List.length_take_le ..).trans hn
    exact ⟨length_padded hlen, by rw [htake]⟩
  | @sendInfo fd b ret readbuf ok hfd hb hplace =>
    refine ⟨fun e he => ?_, fun ret' readbuf' heq => ?_⟩
    · rcases List.mem_append.1 he with he | he
      · exact h.sent e he
      · obtain rfl := List.mem_singleton.1 he
        exact h.place ret readbuf hplace
    · cases ok <;> cases heq
  | @ret r hplace => exact pieces_of_place h rfl (by by_cases hr : r < 0 <;> simp [hr])
  | write hb hopen | close hb | exit hb => exact ⟨h.sent, h.place⟩

/-- `send_info` gets buffers of 256 bytes. -/
private theorem length_message (h : Pieces s) {buffer : List CChar} (hmessage : s.message a = some buffer) :
    buffer.length = bufSz := by
  unfold State.message at hmessage
  split at hmessage
  · split at hmessage
    · rename_i ret readbuf hplace
      obtain rfl := Option.some.inj hmessage
      exact (h.place ret readbuf hplace).length
    · cases hmessage
  · split at hmessage
    · obtain rfl := Option.some.inj hmessage
      rw [unrecognized, length_snprintf2 (by decide) (by simp [zeros])]
      exact List.length_replicate
    · cases hmessage
  · cases hmessage

/-- What is said with a step is what is passed to `send_info`, and `sent` records the pieces. -/
theorem said_of_step (hs : s.step a = some t) :
    s.message a = (s.tells a).map Said.buffer ∧ t.sent = s.sent ++ pieces (s.tells a).toList := by
  have hmoves := moves_of_step hs
  clear hs
  cases hmoves with
  | @command childBuf ok hidle =>
    rw [execution_sent]
    by_cases hcmd : cmpComm s.bashWork childBuf = .unrecognized
    · rw [State.message, State.tells, if_pos hcmd, if_pos hcmd]
      exact ⟨rfl, (List.append_nil _).symm⟩
    · rw [State.message, State.tells, if_neg hcmd, if_neg hcmd]
      exact ⟨rfl, (List.append_nil _).symm⟩
  | @sendInfo fd b ret readbuf ok hfd hb hplace =>
    rw [State.message, State.tells, hfd, hplace]
    exact ⟨rfl, rfl⟩
  | _ => exact ⟨rfl, (List.append_nil _).symm⟩

end Steps

/-! ### The steps of the session -/

/-- What has been read and sent is accounted for, and `shell()` runs while nothing is read. -/
structure Session.Kept (s : Session) : Prop where
  accounted : Accounted s.child
  pieces : Pieces s.child
  idle : s.forked ≠ none → s.child.place = .idle

section Sessions

variable {s t : Session} {a : Session.Action}

/-- While `shell()` runs the bashes move, and the child does not. -/
private theorem idle_of_allows {a : Action} {u : State} (h : s.Kept) (ha : s.Allows a) (hs : s.child.step a = some u)
    (hforked : s.forked ≠ none) : u.place = .idle := by
  have hidle := h.idle hforked
  have hmoves := moves_of_step hs
  clear hs
  cases hmoves with
  | write | exit | close => exact hidle
  | command => exact absurd ha.1 hforked
  | _ => exact absurd ha hforked

theorem kept_step (h : s.Kept) (hs : s.step a = some t) : t.Kept := by
  cases a with
  | fork childBuf =>
    rw [Session.step] at hs
    split at hs <;> cases hs
    rename_i hplace
    have hidle : s.child.place = .idle := hplace.2.1
    exact ⟨h.accounted.fork hidle s.child.bashWork s.child.fd, ⟨h.pieces.sent, h.pieces.place⟩, fun _ => hidle⟩
  | shellReturns =>
    obtain ⟨i, hi, rfl⟩ := Option.map_eq_some_iff.1 hs
    have hidle : s.child.place = .idle := h.idle (by rw [hi]; exact Option.some_ne_none i)
    refine ⟨h.accounted.of_place rfl rfl (fun j => inBuffer_of_place (by simp [hidle])) fun j =>
      inBuffer_of_place (by simp [hidle]), ⟨h.pieces.sent, h.pieces.place⟩, fun hforked => absurd rfl hforked⟩
  | child a =>
    rw [Session.step] at hs
    split at hs
    · rename_i ha
      obtain ⟨u, hu, rfl⟩ := Option.map_eq_some_iff.1 hs
      exact ⟨accounted_step h.accounted hu, pieces_step h.pieces hu, fun hforked => idle_of_allows h ha hu hforked⟩
    · cases hs
  | interrupt i =>
    rw [Session.step] at hs
    split at hs
    · rename_i hplace
      obtain ⟨u, hu, rfl⟩ := Option.map_eq_some_iff.1 hs
      have haccounted := accounted_step h.accounted hu
      have huplace : u.place = .poll := by
        cases moves_of_step hu with
        | exit => exact hplace
      refine ⟨haccounted.of_place rfl rfl (fun j => inBuffer_of_place (by simp [huplace])) fun j =>
        inBuffer_of_place (by simp), pieces_of_place (pieces_step h.pieces hu) rfl (by simp), fun hforked => ?_⟩
      have hidle := h.idle hforked
      rw [hplace] at hidle
      cases hidle
    · cases hs

private theorem said_of_session (hs : s.step a = some t) :
    s.message a = (s.tells a).map Said.buffer ∧ t.child.sent = s.child.sent ++ pieces (s.tells a).toList := by
  cases a with
  | fork childBuf =>
    rw [Session.step] at hs
    split at hs <;> cases hs
    exact ⟨rfl, (List.append_nil _).symm⟩
  | shellReturns =>
    obtain ⟨i, hi, rfl⟩ := Option.map_eq_some_iff.1 hs
    exact ⟨rfl, (List.append_nil _).symm⟩
  | child a =>
    rw [Session.step] at hs
    split at hs
    · obtain ⟨u, hu, rfl⟩ := Option.map_eq_some_iff.1 hs
      exact said_of_step hu
    · cases hs
  | interrupt i =>
    rw [Session.step] at hs
    split at hs
    · obtain ⟨u, hu, rfl⟩ := Option.map_eq_some_iff.1 hs
      refine ⟨rfl, ?_⟩
      cases moves_of_step hu with
      | exit => exact (List.append_nil _).symm
    · cases hs

private theorem kept_start : Session.start.Kept :=
  ⟨accounted_start, ⟨fun _ he => absurd he List.not_mem_nil, fun _ _ h => by cases h⟩, fun h => absurd rfl h⟩

end Sessions

/-! ### All of it -/

/-- `said` are the pieces that the child has sent and the answers, in the order in which the buffers were sent. -/
structure Answers.Inv (K : CChar) (s : Answers) (said : List Said) : Prop where
  kept : s.session.Kept
  relay : ∃ inNet inPipe, s.relay.Inv K inNet inPipe
  pieces : Shell.pieces said = s.session.child.sent
  sent : said.map Said.buffer = s.relay.sent

section Runs

variable {K : CChar} {s t : Answers} {a : Answers.Action} {said : List Said}

private theorem relay_sent {r r' : Relay} (hs : r.step K .receiver = some r' ∨ r.step K .readReceiver = some r') :
    r'.sent = r.sent := by
  rcases hs with hs | hs
  · rw [Relay.step] at hs
    split at hs <;> cases hs <;> rfl
  · rw [Relay.step] at hs
    split at hs <;> cases hs
    rfl

theorem answers_step (h : s.Inv K said) (hs : s.step K a = some t) : t.Inv K (said ++ s.tells a) := by
  cases a with
  | session a =>
    rw [Answers.step] at hs
    split at hs
    · obtain ⟨session, hsession, hs⟩ := Option.bind_eq_some_iff.1 hs
      obtain ⟨hmessage, hx⟩ := said_of_session hsession
      have hkept := kept_step h.kept hsession
      rw [Answers.tells]
      have hall : pieces (said ++ (s.session.tells a).toList) = session.child.sent := by
        rw [hx, ← h.pieces, pieces, List.filterMap_append]
        rfl
      rw [hmessage] at hs
      cases htells : s.session.tells a with
      | none =>
        rw [htells] at hs hall
        obtain rfl := Option.some.inj hs
        refine ⟨hkept, h.relay, hall, ?_⟩
        rw [Option.toList_none, List.append_nil]
        exact h.sent
      | some x =>
        rw [htells] at hs hall
        obtain ⟨relay, hrelay, rfl⟩ := Option.map_eq_some_iff.1 hs
        refine ⟨hkept, relay_step h.relay hrelay, hall, ?_⟩
        rw [Relay.step] at hrelay
        split at hrelay <;> cases hrelay
        rw [List.map_append, h.sent]
        rfl
    · cases hs
  | receiver =>
    obtain ⟨relay, hrelay, rfl⟩ := Option.map_eq_some_iff.1 hs
    rw [Answers.tells, List.append_nil]
    exact ⟨h.kept, relay_step h.relay hrelay, h.pieces, h.sent.trans (relay_sent (.inl hrelay)).symm⟩
  | readReceiver =>
    obtain ⟨relay, hrelay, rfl⟩ := Option.map_eq_some_iff.1 hs
    rw [Answers.tells, List.append_nil]
    exact ⟨h.kept, relay_step h.relay hrelay, h.pieces, h.sent.trans (relay_sent (.inr hrelay)).symm⟩

/-- The network takes whatever the child says. -/
theorem answers_of_session {b : Session.Action} {session : Session} (h : s.Inv K said) (hok : b.ok = true)
    (hs : s.session.step b = some session) : ∃ t, s.step K (.session b) = some t ∧ t.session = session := by
  rw [Answers.step, if_pos hok, hs, Option.bind_some]
  cases hmessage : s.session.message b with
  | none => exact ⟨_, rfl, rfl⟩
  | some buffer =>
    have hlen : buffer.length = bufSz := by
      cases b with
      | child a => exact length_message h.kept.pieces hmessage
      | fork | shellReturns | interrupt => cases hmessage
    let relay : Relay := { s.relay with net := s.relay.net ++ [crypto K buffer], sent := s.relay.sent ++ [buffer] }
    have hrelay : s.relay.step K (.sendInfo buffer) = some relay := by
      rw [Relay.step, if_pos hlen]
    refine ⟨⟨session, relay⟩, ?_, rfl⟩
    show (s.relay.step K (.sendInfo buffer)).map (fun relay => (⟨session, relay⟩ : Answers)) = _
    rw [hrelay]
    rfl

private theorem answers_start : Answers.start.Inv K [] := ⟨kept_start, ⟨[], [], rfl, rfl, by simp, rfl⟩, rfl, rfl⟩

private theorem visible_buffer {s : State} (h : Pieces s) {said : List Said} (hsaid : pieces said = s.sent) {x : Said}
    (hx : x ∈ said) : visible x.buffer = visible x.text := by
  cases x with
  | inl e =>
    have he : e ∈ s.sent := by
      rw [← hsaid, pieces, List.mem_filterMap]
      exact ⟨.inl e, hx, rfl⟩
    have hpiece : e.readbuf = padded bufSz (e.readbuf.take e.ret) := (h.sent e he).padded
    show visible e.readbuf = visible (e.readbuf.take e.ret)
    conv_lhs => rw [hpiece]
    exact visible_padded ..
  | inr childBuf => rfl

/-- For every key but NUL, in every run in which nothing is on its way any more: the buffers that have been passed to
`send_info` are, in this order, what was said, pieces of the output of the bashes and answers to the commands that are
none; the pieces of a bash are, in order and once each, what it has written up to what is still in its pty or in the
buffer of `read_bash`; and the terminal shows all of this, in this order, if and only if no buffer begins with the
key. -/
theorem answers_shown {as : List Answers.Action} (hK : K ≠ 0) (hrun : run (Answers.step K) .start as = some s)
    (hnet : s.relay.net = []) (hpipe : s.relay.dataPipe = []) :
    (saidIn K as).map Said.buffer = s.relay.sent ∧ pieces (saidIn K as) = s.session.child.sent ∧
      (∀ i b, s.session.child.bashes[i]? = some b →
        ((pieces (saidIn K as)).filter (·.fd = i)).flatMap (fun e => Said.text (.inl e)) ++
          s.session.child.inBuffer i ++ b.unread = b.written) ∧
      (visible s.relay.stdout.flatten = (saidIn K as).flatMap (fun x => visible x.text) ↔
        ∀ x ∈ saidIn K as, Passes K x.buffer) := by
  have h : s.Inv K (saidIn K as) := run_outputs (fun _ _ _ _ h hs => answers_step h hs) answers_start hrun
  refine ⟨h.sent, h.pieces, fun i b hb => ?_, ?_⟩
  · rw [h.pieces]
    exact (h.kept.accounted.written_eq hb).symm
  · obtain ⟨inNet, inPipe, hinv⟩ := h.relay
    have hnet' : inNet = [] := List.map_eq_nil_iff.1 (hinv.net.symm.trans hnet)
    have hpipe' : inPipe = [] := hinv.dataPipe_eq_nil_iff.1 hpipe
    have hwritten := hinv.written
    rw [hnet', hpipe', List.append_nil, List.filter_nil, List.append_nil, ← h.sent] at hwritten
    have hvisible : visible ((saidIn K as).map Said.buffer).flatten =
        (saidIn K as).flatMap fun x => visible x.text := by
      rw [visible, List.filter_flatten, List.map_map, ← List.flatMap_def]
      exact List.flatMap_congr fun x hx => visible_buffer h.kept.pieces h.pieces hx
    rw [hwritten, ← hvisible, visible_filter_iff hK, List.forall_mem_map]

/-- The answer to a command, and then a bash that writes an `x`. -/
theorem answers_shown_two : ∃ as s, run (Answers.step (chr 'a')) .start as = some s ∧
    saidIn (chr 'a') as = [.inr [], .inl ⟨0, 1, padded bufSz [chr 'x']⟩] ∧
    visible s.relay.stdout.flatten = (saidIn (chr 'a') as).flatMap (fun x => visible x.text) := by
  let as : List Answers.Action := [.session (.child (.command [] true)), .receiver, .readReceiver,
    .session (.fork shellCmd), .session (.child (.write 0 [chr 'x'])), .session .shellReturns,
    .session (.child (.command [] true)), .session (.child .poll), .session (.child (.read (some 1))),
    .session (.child (.sendInfo true)), .receiver, .readReceiver]
  have hrun : (run (Answers.step (chr 'a')) .start as).map (fun s => (s.relay.net, s.relay.dataPipe)) =
      some ([], []) := by
    decide +kernel
  have hsaid : saidIn (chr 'a') as = [.inr [], .inl ⟨0, 1, padded bufSz [chr 'x']⟩] := by decide +kernel
  obtain ⟨s, hs, hempty⟩ := Option.map_eq_some_iff.1 hrun
  obtain ⟨hnet, hpipe⟩ := Prod.mk.inj hempty
  obtain ⟨-, -, -, hshown⟩ := answers_shown (by decide) hs hnet hpipe
  refine ⟨as, s, hs, hsaid, hshown.2 ?_⟩
  rw [hsaid]
  decide +kernel

end Runs

end UnixTasks.Udp.Shell
