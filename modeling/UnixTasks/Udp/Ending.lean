import UnixTasks.Udp.Sessions
import UnixTasks.Udp.Transmit

/-!
# The end of a session

A client leaves by a line that starts with "quit", which it encrypts as any other line, or by SIGINT, which sends "quit"
as it is.  The child looks for "quit" in what it decrypts; the master looks for the whole string "quit\n" in what it
receives.

* (`quits_linePayload_iff`) for which lines and keys the child finds "quit";
* (`linePayload_ne_quit`, `payload_of_interrupted`) the master finds "quit\n" in neither of the two last datagrams;
* (`InStep`) a client that has left has no slot and no child, and a slot is taken exactly when its child is alive;
* (`session_end_iff`) exactly the sessions for which this holds.
-/

namespace UnixTasks.Udp

open CChar CString ActionSystem

/-- `interrupted`: the datagram of the handler of SIGINT. -/
def interrupted (id : List CChar) : List CChar := snprintf2 (zeros bufSz) bufSz id quitCmd

/-- `first_connect`: the datagram that carries the client's part of the key. -/
def keyDatagram (id : List CChar) (B : CChar) : List CChar := snprintf2 (zeros bufSz) bufSz id [B]

/-- The buffer of `sender` when `read` has returned `line`. -/
def typed (line : List CChar) : List CChar := padded bufSz (line.take bufSz)

/-- The text that `sender` puts behind its id. -/
def linePayload (K : CChar) (line beyond : List CChar) : List CChar :=
  (cstr (crypto K (typed line) ++ beyond)).take (bufSz - idSz)

/-! ### What the child finds -/

section Lines

variable {K : CChar} {line beyond : List CChar}

private theorem length_typed (line : List CChar) : (typed line).length = bufSz := length_padded (List.length_take_le ..)

theorem nul_notMem_linePayload : 0 ∉ linePayload K line beyond := fun h => nul_notMem_cstr _ (List.mem_of_mem_take h)

theorem length_linePayload_le : (linePayload K line beyond).length ≤ bufSz - idSz := List.length_take_le ..

/-- What the child decrypts: the text, and the key for every NUL behind it. -/
private theorem crypto_padded {u : List CChar} (hu : u.length ≤ bufSz) :
    crypto K (padded bufSz u) = u.map (· ^^^ K) ++ List.replicate (bufSz - u.length) K := by
  rw [crypto_eq_map (length_padded hu), map_xor_padded]

private theorem crypto_padded_of_le {u : List CChar} {i : Nat} (hu : u.length ≤ i) (hi : i < bufSz) :
    (crypto K (padded bufSz u))[i]? = some K := by
  rw [crypto_padded (by omega), List.getElem?_append_right (by rwa [List.length_map]), List.getElem?_replicate,
    if_pos (by rw [List.length_map]; omega)]

/-- A character of a line, encrypted by the client. -/
private theorem getElem?_crypto_typed {i : Nat} (hi : i < bufSz) :
    (crypto K (typed line) ++ beyond)[i]? = (typed line)[i]?.map (· ^^^ K) := by
  have hlen : i < ((typed line).map (· ^^^ K)).length := by rwa [List.length_map, length_typed]
  rw [crypto_eq_map (length_typed line), List.getElem?_append_left hlen, List.getElem?_map]

/-- The child sees what was typed, up to and including the place where the text was cut. -/
private theorem getElem?_received {i : Nat} (hi : i ≤ (linePayload K line beyond).length) (hroom : i < bufSz - idSz) :
    (crypto K (padded bufSz (linePayload K line beyond)))[i]? = (typed line)[i]? := by
  let s := crypto K (typed line) ++ beyond
  have hi' : i < bufSz := by
    unfold bufSz idSz at *
    omega
  have hlen : (linePayload K line beyond).length = min (bufSz - idSz) (cstr s).length := List.length_take
  have hs : s[i]? = (typed line)[i]?.map (· ^^^ K) := getElem?_crypto_typed hi'
  rcases Nat.lt_or_eq_of_le hi with hlt | heq
  · -- a character of the text
    have hstr : (cstr s)[i]? = s[i]? := by
      obtain ⟨r, hr⟩ : cstr s <+: s := List.takeWhile_prefix _
      conv_rhs => rw [← hr]
      exact (List.getElem?_append_left (by omega)).symm
    have hmap : i < ((linePayload K line beyond).map (· ^^^ K)).length := by rwa [List.length_map]
    have hpayload : (linePayload K line beyond)[i]? = (typed line)[i]?.map (· ^^^ K) := by
      rw [linePayload, List.getElem?_take_of_lt hroom, hstr, hs]
    rw [crypto_padded (length_linePayload_le.trans (Nat.sub_le ..)), List.getElem?_append_left hmap, List.getElem?_map,
      hpayload, ← List.getElem?_map, ← List.getElem?_map, map_xor_xor]
  · -- the key byte that cut the text off
    have hcut : s[i]? = some 0 := by
      rcases cstr_cases s with ⟨-, hwhole⟩ | ⟨t, ht⟩
      · have hlens : s.length = bufSz + beyond.length := by
          rw [List.length_append, crypto_eq_map (length_typed line), List.length_map, length_typed]
        rw [hwhole, hlens] at hlen
        omega
      · have hi0 : i = (cstr s).length := by omega
        rw [ht, List.getElem?_append_right (by omega), hi0, Nat.sub_self]
        rfl
    rw [crypto_padded_of_le (by omega) hi']
    rw [hs] at hcut
    obtain ⟨c, hc, hcK⟩ := Option.map_eq_some_iff.1 hcut
    rw [hc, xor_eq_nul.1 hcK]

theorem quits_iff {buf : List CChar} : Quits buf ↔ ∀ i < quitCmd.length, buf[i]? = quitCmd[i]? := by
  constructor
  · intro h i hi
    have hget := congrArg (·[i]?) h
    simpa only [List.getElem?_take_of_lt hi] using hget
  · intro h
    refine List.ext_getElem? fun i => ?_
    by_cases hi : i < quitCmd.length
    · rw [List.getElem?_take_of_lt hi, h i hi]
    · rw [List.getElem?_eq_none (l := quitCmd) (by omega), List.getElem?_eq_none]
      rw [List.length_take]
      omega

/-- The child finds "quit" where it was typed, unless the key is one of its first three letters. -/
theorem quits_linePayload_iff : Quits (crypto K (padded bufSz (linePayload K line beyond))) ↔
    Quits (typed line) ∧ K ∉ quitCmd.take 3 := by
  have hroom : ∀ i < quitCmd.length, i < bufSz - idSz ∧ i < bufSz := by decide
  constructor
  · intro h
    have hq := quits_iff.1 h
    -- the third and the fourth letter differ, so they are not both made of the padding
    have hlen : 3 ≤ (linePayload K line beyond).length := by
      by_contra hlt
      have h2 := hq 2 (by decide)
      have h3 := hq 3 (by decide)
      rw [crypto_padded_of_le (by omega) (by decide)] at h2 h3
      exact absurd (h2.symm.trans h3) (by decide)
    refine ⟨quits_iff.2 fun i hi => ?_, ?_⟩
    · have hi3 : i ≤ 3 := Nat.le_of_lt_succ hi
      rw [← hq i hi, getElem?_received (hi3.trans hlen) (hroom i hi).1]
    · intro hK
      -- a letter that is the key would have been a NUL in the text
      obtain ⟨i, hi⟩ := List.mem_iff_getElem?.1 hK
      have hi3 : i < 3 := (List.getElem?_eq_some_iff.1 hi).1.trans_le (List.length_take_le ..)
      have hiu : i < (linePayload K line beyond).length := by omega
      have hmap : i < ((linePayload K line beyond).map (· ^^^ K)).length := by rwa [List.length_map]
      have hget := hq i (hi3.trans (by decide))
      rw [List.getElem?_take_of_lt hi3] at hi
      rw [hi, crypto_padded (length_linePayload_le.trans (Nat.sub_le ..)), List.getElem?_append_left hmap,
        List.getElem?_map, List.getElem?_eq_getElem hiu, Option.map_some, Option.some.injEq] at hget
      have hnul : (linePayload K line beyond)[i] = 0 := (BitVec.xor_left_inj K).1 (hget.trans BitVec.zero_xor.symm)
      exact nul_notMem_linePayload (hnul ▸ List.getElem_mem hiu)
  · rintro ⟨hq, hK⟩
    have hq' := quits_iff.1 hq
    have hlen : 3 ≤ (linePayload K line beyond).length := by
      by_contra hlt
      have hlt4 : (linePayload K line beyond).length < quitCmd.length :=
        Nat.lt_of_lt_of_le (Nat.lt_of_not_le hlt) (by decide)
      have hget := (getElem?_received (Nat.le_refl _) (hroom _ hlt4).1).trans (hq' _ hlt4)
      rw [crypto_padded_of_le (Nat.le_refl _) (hroom _ hlt4).2] at hget
      refine hK (List.mem_of_getElem? (i := (linePayload K line beyond).length) ?_)
      rw [List.getElem?_take_of_lt (by omega), ← hget]
    refine quits_iff.2 fun i hi => ?_
    have hi3 : i ≤ 3 := Nat.le_of_lt_succ hi
    rw [getElem?_received (hi3.trans hlen) (hroom i hi).1, hq' i hi]

private theorem xor_ne_self (hK : K ≠ 0) (c : CChar) : c ^^^ K ≠ c := by
  intro h
  exact hK ((BitVec.xor_right_inj c).1 (h.trans BitVec.xor_zero.symm))

/-- The first letter of an encrypted "quit" is not a 'q'. -/
theorem linePayload_ne_quit (hK : K ≠ 0) (hq : Quits (typed line)) : linePayload K line beyond ≠ quit := by
  intro h
  have hget : (crypto K (padded bufSz (linePayload K line beyond)))[0]? = (typed line)[0]? :=
    getElem?_received (Nat.zero_le _) (by decide)
  rw [h, crypto_padded (by decide), quits_iff.1 hq 0 (by decide)] at hget
  exact xor_ne_self hK (chr 'q') (Option.some.inj hget)

end Lines

/-! ### The datagrams of a client -/

/-- The text of a message. -/
def Msg.payload : Msg → List CChar
  | .data _ payload _ => payload
  | _ => []

/-- The client sends this datagram for a line that it has read, and goes on. -/
def Goes (K : CChar) (id : List CChar) (m : Msg) : Prop :=
  ∃ line beyond, sender K id line beyond = .sendto m.datagram false

/-- The client sends this datagram and exits: for a line that starts with "quit", or on SIGINT. -/
def Leaves (K : CChar) (id : List CChar) (m : Msg) : Prop :=
  (∃ line beyond, sender K id line beyond = .sendto m.datagram true) ∨ m.datagram = interrupted id

section Datagrams

variable {K B : CChar} {id line beyond : List CChar} {m : Msg}
variable (hm : m.WellFormed) (hown : ∃ payload tail, m = .data id payload tail)
include hm hown

/-- The text of a datagram is what is between the id and the NUL. -/
private theorem payload_of_datagram {u t : List CChar}
    (hu : 0 ∉ u) (ht : NulTail t) (h : m.datagram = id ++ u ++ t) : m.payload = u := by
  have hcstr : ∀ {u t : List CChar}, 0 ∉ u → NulTail t → cstr (u ++ t) = u := by
    intro u t hu ht
    cases t with
    | nil => rw [List.append_nil, cstr_of_notMem hu]
    | cons c t =>
      obtain rfl : c = 0 := ht c rfl
      exact cstr_append_nul hu t
  obtain ⟨payload, tail, rfl⟩ := hown
  obtain ⟨-, hnul, -, htail⟩ := hm
  rw [Msg.datagram, List.append_assoc, List.append_assoc, List.append_cancel_left_eq] at h
  calc payload = cstr (payload ++ tail) := (hcstr hnul htail).symm
    _ = cstr (u ++ t) := by rw [h]
    _ = u := hcstr hu ht

variable (hnul : 0 ∉ id)
include hnul

private theorem payload_of_snprintf2 {n : Nat} {s : List CChar}
    (h : m.datagram = (snprintf2 (zeros n) bufSz id s).take bufSz) :
    m.payload = (cstr s).take (bufSz - idSz) := by
  have hid : id.length = idSz - 1 := by
    obtain ⟨payload, tail, rfl⟩ := hown
    exact hm.1.1
  obtain ⟨t, ht, heq⟩ := snprintf2_take hid hnul n s
  exact payload_of_datagram hm hown (fun h0 => nul_notMem_cstr s (List.mem_of_mem_take h0)) ht (h.trans heq)

theorem payload_of_sender {quits : Bool} (h : sender K id line beyond = .sendto m.datagram quits) :
    m.payload = linePayload K line beyond ∧ (quits = true ↔ Quits (typed line)) := by
  simp only [sender] at h
  split at h
  · cases h
  · obtain ⟨hdatagram, rfl⟩ := Sender.sendto.inj h
    refine ⟨payload_of_snprintf2 hm hown hnul hdatagram.symm, ?_⟩
    rw [decide_eq_true_iff]
    show strncmp quitCmd.length (crypto K (crypto K (typed line))) quitCmd = 0 ↔ _
    rw [crypto_crypto (length_typed line), strncmp_quitCmd]

/-- The client formats these datagrams in a buffer of their own size. -/
private theorem payload_of_snprintf2_bufSz {s : List CChar} (h : m.datagram = snprintf2 (zeros bufSz) bufSz id s) :
    m.payload = (cstr s).take (bufSz - idSz) := by
  refine payload_of_snprintf2 (n := bufSz) hm hown hnul (h.trans (List.take_of_length_le ?_).symm)
  rw [length_snprintf2 (by decide) (by simp [zeros])]
  simp [zeros]

theorem payload_of_interrupted (h : m.datagram = interrupted id) : m.payload = quitCmd :=
  payload_of_snprintf2_bufSz hm hown hnul h

private theorem payload_of_keyDatagram (h : m.datagram = keyDatagram id B) : m.payload ≠ quit := by
  intro hq
  have hlen : (cstr [B]).length ≤ 1 := length_cstr_le [B]
  rw [payload_of_snprintf2_bufSz hm hown hnul h, List.take_of_length_le (hlen.trans (by decide))] at hq
  rw [hq] at hlen
  exact absurd hlen (by decide)

/-- No child exits at a line after which its client goes on. -/
private theorem Goes.not_quits (h : Goes K id m) : ¬ Quits (crypto K (padded bufSz m.payload)) := by
  obtain ⟨line, beyond, hsender⟩ := h
  obtain ⟨hpayload, hquits⟩ := payload_of_sender hm hown hnul hsender
  rw [hpayload, quits_linePayload_iff]
  intro hq
  exact absurd (hquits.2 hq.1) (by decide)

/-- The master does not find "quit\n" in the last datagram, and the child finds "quit" in it if it is that of a line and
the key is none of the first three letters. -/
theorem Leaves.payload (hK : K ≠ 0) (h : Leaves K id m) : m.payload ≠ quit ∧
      (Quits (crypto K (padded bufSz m.payload)) ↔ m.datagram ≠ interrupted id ∧ K ∉ quitCmd.take 3) := by
  have hsigint : ¬ Quits (crypto K (padded bufSz quitCmd)) := by
    intro hq
    exact xor_ne_self hK (chr 'q') (Option.some.inj (quits_iff.1 hq 0 (by decide)))
  by_cases hi : m.datagram = interrupted id
  · have hpayload := payload_of_interrupted hm hown hnul hi
    rw [hpayload]
    exact ⟨by decide, iff_of_false hsigint fun h => h.1 hi⟩
  · obtain ⟨line, beyond, hsender⟩ := h.resolve_right hi
    obtain ⟨hpayload, hquits⟩ := payload_of_sender hm hown hnul hsender
    have hq := hquits.1 rfl
    rw [hpayload, quits_linePayload_iff]
    exact ⟨linePayload_ne_quit hK hq, and_congr (iff_of_true hq hi) Iff.rfl⟩

end Datagrams

/-! ### A whole session -/

/-- The messages of one client. -/
def ownMessages (id : List CChar) (ms : List Msg) : List Msg := ms.filter fun m => m.client = some id

/-- The messages up to the first "quit\n". -/
def upToQuit : List Msg → List Msg
  | [] => []
  | m :: ms => m :: if m.payload = quit then [] else upToQuit ms

private theorem upToQuit_of_forall_ne {ms : List Msg} (h : ∀ m ∈ ms, m.payload ≠ quit) (ms' : List Msg) :
    upToQuit (ms ++ ms') = ms ++ upToQuit ms' := by
  induction ms with
  | nil => rfl
  | cons m ms ih =>
    rw [List.cons_append, upToQuit, if_neg (h m List.mem_cons_self), ih fun m hm => h m (List.mem_cons_of_mem _ hm)]
    rfl

private theorem upToQuit_of_exists {ms : List Msg} (h : ∃ m ∈ ms, m.payload = quit) (ms' : List Msg) :
    upToQuit (ms ++ ms') = upToQuit ms := by
  induction ms with
  | nil => simp at h
  | cons m ms ih =>
    rw [List.cons_append, upToQuit, upToQuit]
    by_cases hm : m.payload = quit
    · rw [if_pos hm, if_pos hm]
    · rw [if_neg hm, if_neg hm, ih (((List.exists_mem_cons_iff ..).1 h).resolve_left hm)]

private theorem upToQuit_subset (ms : List Msg) : upToQuit ms ⊆ ms := by
  induction ms with
  | nil => exact List.Subset.refl _
  | cons m ms ih =>
    unfold upToQuit
    split
    · exact List.cons_subset_cons m (List.nil_subset ms)
    · exact List.cons_subset_cons m ih

private theorem forall_upToQuit {ms : List Msg} :
    (∀ m ∈ upToQuit ms, m.payload ≠ quit) ↔ ∀ m ∈ ms, m.payload ≠ quit := by
  constructor
  · intro h
    induction ms with
    | nil => exact h
    | cons m ms ih =>
      have hm : m.payload ≠ quit := h m List.mem_cons_self
      rw [upToQuit, if_neg hm, List.forall_mem_cons] at h
      exact List.forall_mem_cons.2 ⟨hm, ih h.2⟩
  · intro h m hm
    exact h m (upToQuit_subset ms hm)

section Session

variable {K B : CChar} {id : List CChar} {key : Msg} {before after : List Msg} {last : Option Msg}
variable {s : Master} {p : Nat}

private theorem isData_of_client {ms : List Msg} (h : NoConnect (atoi id) ms) {m : Msg} (hm : m ∈ ms)
    (hclient : m.client = some id) : ∃ payload tail, m = .data id payload tail := by
  cases m with
  | hello tail => cases hclient
  | connect id' tail =>
    obtain rfl : id' = id := Option.some.inj hclient
    exact absurd rfl (h _ hm id' tail rfl)
  | data id' payload tail =>
    obtain rfl : id' = id := Option.some.inj hclient
    exact ⟨payload, tail, rfl⟩

private theorem sent_eq_upToQuit {ms : List Msg} (hconnect : NoConnect (atoi id) ms) :
    sent id ms = (upToQuit (ownMessages id ms)).map Msg.payload := by
  induction ms with
  | nil => rfl
  | cons m ms ih =>
    have ih' := ih fun m hm => hconnect m (List.mem_cons_of_mem _ hm)
    by_cases hown : m.client = some id
    · have hcons : ownMessages id (m :: ms) = m :: ownMessages id ms := List.filter_cons_of_pos (by simpa using hown)
      obtain ⟨payload, tail, rfl⟩ := isData_of_client hconnect List.mem_cons_self hown
      rw [hcons, sent, if_pos rfl, ih', upToQuit, List.map_cons, apply_ite (List.map Msg.payload)]
      rfl
    · have hcons : ownMessages id (m :: ms) = ownMessages id ms := List.filter_cons_of_neg (by simpa using hown)
      rw [hcons, ← ih']
      cases m with
      | data id' payload tail =>
        have hne : id' ≠ id := fun heq => hown (congrArg some heq)
        rw [sent, if_neg hne]
      | _ => rfl

/-- The child that reads the pipe `p`, when it has read all that the master has written to it. -/
def childOf (K : CChar) (bashWork : Nat → Bool) (p : Nat) (s : Master) : Child :=
  childHandle K bashWork 0 .key (writesTo p s.log)

/-- When the client `id` has left, its child has exited and its slot is free; and its slot is taken exactly when its
child is alive. -/
def InStep (K : CChar) (bashWork : Nat → Bool) (id : Int) (p : Nat) (left : Bool) (s : Master) : Prop :=
  (left = true → childOf K bashWork p s = .exited ∧ id ∉ s.mas) ∧ (id ∈ s.mas ↔ childOf K bashWork p s ≠ .exited)

/-- What has to arrive before and after the last datagram of a client.  A client that has not left has sent no
encrypted line that reads "quit\n".  A client that has left has sent one, and the master has got it after the last
datagram, which is that of a line; and the key is none of the first three letters of "quit". -/
def EndsInStep (K : CChar) (id : List CChar) (before after : List Msg) : Option Msg → Prop
  | none => ∀ m ∈ before ++ after, m.payload ≠ quit
  | some last => (∀ m ∈ before, m.payload ≠ quit) ∧ (∃ m ∈ after, m.payload = quit) ∧
    last.datagram ≠ interrupted id ∧ K ∉ quitCmd.take 3

/-- What master and child find in the datagrams of a client: the key, the lines `before` and `after`, and the last one,
which need not arrive last. -/
structure Found (K : CChar) (id : List CChar) (key : Msg) (before after : List Msg) (last : Option Msg) : Prop where
  key : key.payload ≠ quit
  goes : ∀ m ∈ before ++ after, ¬ Quits (crypto K (padded bufSz m.payload))
  last : ∀ m ∈ last, m.payload ≠ quit ∧
    (Quits (crypto K (padded bufSz m.payload)) ↔ m.datagram ≠ interrupted id ∧ K ∉ quitCmd.take 3)

/-- The child exits if and only if the last datagram reaches it and it finds "quit" in it. -/
private theorem Found.exited_iff (h : Found K id key before after last) (bashWork : Nat → Bool)
    (hwrites : writesTo p s.log =
      ((upToQuit (key :: (before ++ last.toList ++ after))).map Msg.payload).map (padded bufSz)) :
    childOf K bashWork p s = .exited ↔
      (∀ m ∈ before, m.payload ≠ quit) ∧ ∃ m ∈ last, m.datagram ≠ interrupted id ∧ K ∉ quitCmd.take 3 := by
  have hgoes : ∀ ms : List Msg, ms ⊆ before ++ after → ∀ m ∈ ms, ¬ Quits (crypto K (padded bufSz m.payload)) :=
    fun ms hms m hm => h.goes m (hms hm)
  rw [childOf, hwrites, upToQuit, if_neg h.key, List.map_cons, List.map_cons, childHandle, Child.read,
    childHandle_exited_iff, List.map_map]
  constructor
  · rintro ⟨data, hdata, hq⟩
    obtain ⟨m, hm, rfl⟩ := List.mem_map.1 hdata
    by_cases hquit : ∃ m ∈ before, m.payload = quit
    · -- nothing after the first "quit\n" reaches the child
      rw [List.append_assoc, upToQuit_of_exists hquit] at hm
      exact absurd hq (hgoes before (List.subset_append_left ..) m (upToQuit_subset _ hm))
    · push Not at hquit
      refine ⟨hquit, ?_⟩
      rcases List.mem_append.1 (upToQuit_subset _ hm) with hm | hm
      · rcases List.mem_append.1 hm with hm | hm
        · exact absurd hq (hgoes before (List.subset_append_left ..) m hm)
        · have hm' := Option.mem_toList.1 hm
          exact ⟨m, hm', (h.last m hm').2.1 hq⟩
      · exact absurd hq (hgoes after (List.subset_append_right ..) m hm)
  · rintro ⟨hquit, m, hm, hfound⟩
    refine ⟨padded bufSz m.payload, List.mem_map_of_mem (f := padded bufSz ∘ Msg.payload) ?_, (h.last m hm).2.2 hfound⟩
    obtain rfl : last = some m := hm
    rw [List.append_assoc, upToQuit_of_forall_ne hquit]
    exact List.mem_append_right _ List.mem_cons_self

/-- The slot stays taken if and only if no line reads "quit\n"; the last datagram never does. -/
private theorem Found.quit_iff (h : Found K id key before after last) :
    (∀ m ∈ upToQuit (key :: (before ++ last.toList ++ after)), m.payload ≠ quit) ↔
      ∀ m ∈ before ++ after, m.payload ≠ quit := by
  have hlast : ∀ m ∈ last.toList, m.payload ≠ quit := fun m hm => (h.last m (Option.mem_toList.1 hm)).1
  rw [forall_upToQuit, List.forall_mem_cons, and_iff_right h.key, List.forall_mem_append, List.forall_mem_append,
    and_iff_left hlast, List.forall_mem_append]

private theorem inStep_iff {bashWork : Nat → Bool} {n : Int} (hexited : childOf K bashWork p s = .exited ↔
      (∀ m ∈ before, m.payload ≠ quit) ∧ ∃ m ∈ last, m.datagram ≠ interrupted id ∧ K ∉ quitCmd.take 3)
    (hslot : n ∈ s.mas ↔ ∀ m ∈ before ++ after, m.payload ≠ quit) :
    InStep K bashWork n p last.isSome s ↔ EndsInStep K id before after last := by
  unfold InStep
  rw [Ne, hexited, hslot]
  cases last with
  | none => simp [EndsInStep]
  | some m =>
    have hafter : (∃ m ∈ after, m.payload = quit) ↔ ¬ ∀ m ∈ after, m.payload ≠ quit := by
      push Not
      rfl
    simp only [EndsInStep, hafter, List.forall_mem_append, Option.isSome_some, Option.mem_some_iff, exists_eq_left']
    constructor
    · rintro ⟨hleft, -⟩
      obtain ⟨⟨hbefore, hfound⟩, hnot⟩ := hleft trivial
      exact ⟨hbefore, fun hall => hnot ⟨hbefore, hall⟩, hfound⟩
    · rintro ⟨hbefore, hquit, hfound⟩
      exact ⟨fun _ => ⟨⟨hbefore, hfound⟩, fun h => hquit h.2⟩,
        iff_of_false (fun h => hquit h.2) (not_not.2 ⟨hbefore, hfound⟩)⟩

private theorem found_of_sent (hK : K ≠ 0) (hnul : 0 ∉ id)
    (hdata : ∀ m ∈ key :: (before ++ last.toList ++ after), m.WellFormed ∧ ∃ payload tail, m = .data id payload tail)
    (hkey : key.datagram = keyDatagram id B) (hgoes : ∀ m ∈ before ++ after, Goes K id m)
    (hlast : ∀ m ∈ last, Leaves K id m) : Found K id key before after last where
  key := by
    obtain ⟨hwf, hown⟩ := hdata key List.mem_cons_self
    exact payload_of_keyDatagram hwf hown hnul hkey
  goes := by
    intro m hm
    have hmem : m ∈ key :: (before ++ last.toList ++ after) := by
      rcases List.mem_append.1 hm with hm | hm <;> simp [hm]
    obtain ⟨hwf, hown⟩ := hdata m hmem
    exact (hgoes m hm).not_quits hwf hown hnul
  last := by
    intro m hm
    obtain ⟨hwf, hown⟩ := hdata m (by simp [Option.mem_toList.2 hm])
    exact (hlast m hm).payload hwf hown hnul hK

/-- For every set of clients, every key other than 0 and every order of their datagrams: take a client that finds a
slot, of whose datagrams the one with the key arrives first, and which leaves with the datagram `last`, or not at all.
When the master and its child have processed all its datagrams, its child and its slot are in step if and only if the
order is as in `EndsInStep`; so no client whose last datagram arrives last ends in step. -/
theorem session_end_iff (hK : K ≠ 0) (bashWork : Nat → Bool) {ms pre post : List Msg} {tail : List CChar}
    (h : Session ms) (hms : ms = pre ++ .connect id tail :: post) (hnul : 0 ∉ id)
    (hown : ownMessages id post = key :: (before ++ last.toList ++ after)) (hkey : key.datagram = keyDatagram id B)
    (hgoes : ∀ m ∈ before ++ after, Goes K id m) (hlast : ∀ m ∈ last, Leaves K id m) :
    ∃ s₁ s₂ s, run Master.step .start (rounds pre) = some s₁ ∧
      s₁.step (.ok, (Msg.connect id tail).datagram) = some s₂ ∧ run Master.step s₂ (rounds post) = some s ∧
      (0 ∈ s₁.mas → (InStep K bashWork (atoi id) s₁.pipes last.isSome s ↔ EndsInStep K id before after last)) := by
  obtain ⟨hidok, hwf, hnoconnect, hother, -⟩ := h.after hms
  have hdata : ∀ m ∈ ownMessages id post, m.WellFormed ∧ ∃ payload tail, m = .data id payload tail := by
    intro m hm
    obtain ⟨hmem, hclient⟩ := List.mem_filter.1 hm
    exact ⟨hwf m hmem, isData_of_client hnoconnect hmem (of_decide_eq_true hclient)⟩
  rw [hown] at hdata
  have hfound := found_of_sent hK hnul hdata hkey hgoes hlast
  have hsent := sent_eq_upToQuit hnoconnect
  rw [hown] at hsent
  obtain ⟨s₁, s₂, hs₁, hs₂, hnamed, ⟨hfull, -⟩ | ⟨hfree, k, -, -, hopen, hnone⟩⟩ := h.opens hms
  · obtain ⟨s, hs, -, -⟩ := hnamed.run hwf
    exact ⟨s₁, s₂, s, hs₁, hs₂, hs, fun h => absurd h hfull⟩
  · obtain ⟨s, hs, hwrites, hclosed, hstays⟩ := hopen.run hidok.2.1 hwf hnoconnect hother
    refine ⟨s₁, s₂, s, hs₁, hs₂, hs, fun _ => ?_⟩
    have hexited := hfound.exited_iff bashWork (by rw [hwrites, hnone, hsent, List.nil_append])
    have hslot : atoi id ∈ s.mas ↔ ∀ m ∈ before ++ after, m.payload ≠ quit := by
      have hquit : quit ∉ sent id post ↔ ∀ m ∈ before ++ after, m.payload ≠ quit := by
        rw [hsent, List.mem_map, ← hfound.quit_iff]
        push Not
        rfl
      rw [← hquit]
      by_cases hq : quit ∈ sent id post
      · exact iff_of_false (hclosed hq).slot (not_not.2 hq)
      · exact iff_of_true (List.mem_of_getElem? (hstays hq).slot) hq
    exact inStep_iff hexited hslot

end Session

/-- The key is 'a', and an encrypted line that reads "quit\n" arrives after the typed "quit". -/
theorem session_end_iff_reordered :
    ∃ s₁ s₂ s, run Master.step .start (rounds []) = some s₁ ∧
      s₁.step (.ok, (Msg.connect (List.replicate 9 (chr '1')) []).datagram) = some s₂ ∧
      run Master.step s₂ (rounds [.data (List.replicate 9 (chr '1')) [chr 'G'] (zeros 246),
        .data (List.replicate 9 (chr '1')) ([16, 20, 8, 21, 107] ++ List.replicate 241 (chr 'a')) [0],
        .data (List.replicate 9 (chr '1')) quit (zeros 242)]) = some s ∧
      (0 ∈ s₁.mas → (InStep (chr 'a') (fun _ => false) (atoi (List.replicate 9 (chr '1'))) s₁.pipes true s ↔
        EndsInStep (chr 'a') (List.replicate 9 (chr '1')) [] [.data (List.replicate 9 (chr '1')) quit (zeros 242)]
          (some (.data (List.replicate 9 (chr '1')) ([16, 20, 8, 21, 107] ++ List.replicate 241 (chr 'a')) [0])))) :=
  @session_end_iff (chr 'a') (chr 'G') (List.replicate 9 (chr '1'))
    (.data (List.replicate 9 (chr '1')) [chr 'G'] (zeros 246)) [] [.data (List.replicate 9 (chr '1')) quit (zeros 242)]
    (some (.data (List.replicate 9 (chr '1')) ([16, 20, 8, 21, 107] ++ List.replicate 241 (chr 'a')) [0])) (by decide)
    (fun _ => false) _ [] [.data (List.replicate 9 (chr '1')) [chr 'G'] (zeros 246),
      .data (List.replicate 9 (chr '1')) ([16, 20, 8, 21, 107] ++ List.replicate 241 (chr 'a')) [0],
      .data (List.replicate 9 (chr '1')) quit (zeros 242)] []
    ⟨by decide +kernel, by decide +kernel, by decide +kernel⟩ rfl (by decide) (by decide +kernel) (by decide +kernel)
    (by
      intro m hm
      obtain rfl := List.mem_singleton.1 hm
      exact ⟨[16, 20, 8, 21, 107, 97], [0], by decide +kernel⟩)
    (by
      intro m hm
      obtain rfl := Option.some.inj hm
      exact .inl ⟨['q', 'u', 'i', 't', '\n'].map chr, [0], by decide +kernel⟩)

/-- A client connects, sends its part of the key and types "quit": its child exits, and its slot is never free again.
When it gets SIGINT instead, its slot stays taken as well. -/
theorem not_in_step :
    (∃ datagram s, sender (chr 'a') (List.replicate 9 (chr '1')) (['q', 'u', 'i', 't', '\n'].map chr) [0] =
        .sendto datagram true ∧
      run Master.step .start [(.ok, (Msg.connect (List.replicate 9 (chr '1')) []).datagram),
        (.ok, keyDatagram (List.replicate 9 (chr '1')) (chr 'G')), (.ok, datagram)] = some s ∧
      ¬ InStep (chr 'a') (fun _ => false) 111111111 0 true s) ∧
    (∃ s, run Master.step .start [(.ok, (Msg.connect (List.replicate 9 (chr '1')) []).datagram),
        (.ok, keyDatagram (List.replicate 9 (chr '1')) (chr 'G')),
        (.ok, interrupted (List.replicate 9 (chr '1')))] = some s ∧
      ¬ InStep (chr 'a') (fun _ => false) 111111111 0 true s) := by
  have hslot : ∀ s : Master, s.mas.head? = some 111111111 → ¬ InStep (chr 'a') (fun _ => false) 111111111 0 true s := by
    intro s hs h
    exact (h.1 rfl).2 (List.mem_of_mem_head? hs)
  constructor
  · have hrun : (run Master.step .start [(.ok, (Msg.connect (List.replicate 9 (chr '1')) []).datagram),
        (.ok, keyDatagram (List.replicate 9 (chr '1')) (chr 'G')),
        (.ok, (Msg.data (List.replicate 9 (chr '1')) ([16, 20, 8, 21, 107] ++ List.replicate 241 (chr 'a'))
          [0]).datagram)]).map (fun s => s.mas.head?) = some (some 111111111) := by
      decide +kernel
    obtain ⟨s, hs, hhead⟩ := Option.map_eq_some_iff.1 hrun
    exact ⟨_, s, by decide +kernel, hs, hslot s hhead⟩
  · have hrun : (run Master.step .start [(.ok, (Msg.connect (List.replicate 9 (chr '1')) []).datagram),
        (.ok, keyDatagram (List.replicate 9 (chr '1')) (chr 'G')),
        (.ok, interrupted (List.replicate 9 (chr '1')))]).map (fun s => s.mas.head?) = some (some 111111111) := by
      decide +kernel
    obtain ⟨s, hs, hhead⟩ := Option.map_eq_some_iff.1 hrun
    exact ⟨s, hs, hslot s hhead⟩

end UnixTasks.Udp
