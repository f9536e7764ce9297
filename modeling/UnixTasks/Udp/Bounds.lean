import UnixTasks.Udp.Server

/-!
# The string functions on a datagram

Which arrays `com_connect` and `master_handler` give to the functions of string.h, and when these stay in them.  A
function reads its source up to the NUL, or up to the number of characters that it is given; `strcpy` is given none, and
its source, from the tenth byte of the buffer on, is longer by one than the array that it copies to.

The main result (`all_inBounds_iff`) is about every datagram: the functions stay in their arrays if and only if the
datagram is a command, or is shorter than 265 bytes, or has a NUL where `strcpy` can store it.
-/

namespace UnixTasks.Udp

open CChar CString

/-- A call of a string function, with what its arrays hold; `print` is `%s` in a log message. -/
inductive StringOp where
  | strncpy (dst src : List CChar) (n : Nat)
  | strcpy (dst src : List CChar)
  | strncmp (a b : List CChar) (n : Nat)
  | atoi (s : List CChar)
  | print (s : List CChar)

/-- The NUL is in the array, or the function stops before the end of the array. -/
def Stops (s : List CChar) (n : Nat) : Prop := 0 ∈ s ∨ n ≤ s.length

/-- The function finds the end of its sources and stores no more than its destination holds. -/
def StringOp.InBounds : StringOp → Prop
  | .strncpy dst src n => Stops src n ∧ n ≤ dst.length
  | .strcpy dst src => 0 ∈ src ∧ (cstr src).length + 1 ≤ dst.length
  | .strncmp a b n => Stops a n ∧ Stops b n
  | .atoi s => 0 ∈ s
  | .print s => 0 ∈ s

/-- The calls of `com_connect`. -/
def comConnectOps (buffer : List CChar) : List StringOp :=
  let myIpStr := strncpy (zeros bufSz) (buffer.drop connect.length) idSz
  [.strncpy (zeros bufSz) (buffer.drop connect.length) idSz, .print myIpStr, .atoi myIpStr]

/-- The calls of `decypher`; nothing can be said of what comes after a `strcpy` that leaves its arrays. -/
def decypherOps (buffer : List CChar) : List StringOp :=
  [.strncpy (zeros bufSz) buffer (idSz - 1), .strcpy (zeros bufSz) (buffer.drop (idSz - 1))] ++
    match decypher buffer with
    | none => []
    | some (_, myIpStr, _) => [.atoi myIpStr]

/-- The calls of `master_handler`, those of `decypher` first. -/
def masterHandlerOps (calls : Calls) (buffer : List CChar) (s : Master) : List StringOp :=
  decypherOps buffer ++
    match decypher buffer with
    | none => []
    | some (id, _, bufferWithoutPid) =>
      if id = -1 then []
      else if find id s.mas < 0 then []
      else .print bufferWithoutPid ::
        if calls.write = false then [] else [.strncmp bufferWithoutPid (quit ++ [0]) (quit.length + 1)]

/-- The calls of the handler that `server_handler` chooses for the datagram. -/
def handlerOps (calls : Calls) (datagram : List CChar) (s : Master) : List StringOp :=
  let buffer := receive datagram
  if strcmp buffer hello = 0 then []
  else if strncmp connect.length buffer connect = 0 then comConnectOps buffer
  else masterHandlerOps calls buffer s

/-- The datagram is a command, or a NUL is among the 256 bytes from the tenth on. -/
def Copies (datagram : List CChar) : Prop :=
  strcmp (receive datagram) hello = 0 ∨ strncmp connect.length (receive datagram) connect = 0 ∨
    datagram.length < bufSz + idSz - 1 ∨ 0 ∈ (datagram.drop (idSz - 1)).take bufSz

instance (datagram : List CChar) : Decidable (Copies datagram) := inferInstanceAs (Decidable (_ ∨ _ ∨ _ ∨ _))

/-! ### The buffer -/

private theorem length_receive (datagram : List CChar) : (receive datagram).length = bufSz + idSz :=
  length_padded (List.length_take_le ..)

/-- The bytes of the datagram, and zeros behind them. -/
theorem getElem?_receive (datagram : List CChar) {i : Nat} (hi : i < bufSz + idSz) :
    (receive datagram)[i]? = some (datagram[i]?.getD 0) := by
  rw [receive, padded]
  by_cases h : i < datagram.length
  · rw [List.getElem?_append_left (by rw [List.length_take]; omega), List.getElem?_take_of_lt hi,
      List.getElem?_eq_getElem h]
    rfl
  · rw [List.take_of_length_le (by omega), List.getElem?_append_right (by omega), zeros, List.getElem?_replicate,
      if_pos (by omega), List.getElem?_eq_none (by omega)]
    rfl

private theorem mem_take_drop_iff {s : List CChar} {c : CChar} {k n : Nat} :
    c ∈ (s.drop k).take n ↔ ∃ i < n, s[k + i]? = some c := by
  rw [List.mem_iff_getElem?]
  constructor
  · rintro ⟨i, hi⟩
    rw [List.getElem?_take] at hi
    split at hi
    · rw [List.getElem?_drop] at hi
      exact ⟨i, ‹_›, hi⟩
    · cases hi
  · rintro ⟨i, hlt, hi⟩
    refine ⟨i, ?_⟩
    rw [List.getElem?_take_of_lt hlt, List.getElem?_drop, hi]

/-- A NUL where `strcpy` can store it. -/
private theorem nul_mem_receive_iff (datagram : List CChar) :
    0 ∈ ((receive datagram).drop (idSz - 1)).take bufSz ↔
      datagram.length < bufSz + idSz - 1 ∨ 0 ∈ (datagram.drop (idSz - 1)).take bufSz := by
  rw [mem_take_drop_iff, mem_take_drop_iff]
  constructor
  · rintro ⟨i, hlt, hi⟩
    rw [getElem?_receive _ (by unfold idSz; omega)] at hi
    cases hbyte : datagram[idSz - 1 + i]? with
    | none =>
      left
      have hle := List.getElem?_eq_none_iff.1 hbyte
      unfold bufSz idSz at *
      omega
    | some c =>
      right
      rw [hbyte] at hi
      exact ⟨i, hlt, hbyte.trans hi⟩
  · rintro (h | ⟨i, hlt, hi⟩)
    · refine ⟨bufSz - 1, by decide, ?_⟩
      rw [getElem?_receive _ (by decide), List.getElem?_eq_none (by unfold bufSz idSz at *; omega)]
      rfl
    · exact ⟨i, hlt, by rw [getElem?_receive _ (by unfold idSz; omega), hi]; rfl⟩

/-- `strcpy` to an array of `n` bytes. -/
private theorem strcpy_inBounds_iff {src : List CChar} {n : Nat} :
    (0 ∈ src ∧ (cstr src).length + 1 ≤ n) ↔ 0 ∈ src.take n := by
  rcases cstr_cases src with ⟨hnot, -⟩ | ⟨t, ht⟩
  · exact iff_of_false (fun h => hnot h.1) fun h => hnot (List.mem_of_mem_take h)
  · have hnul := nul_notMem_cstr src
    have hmem : 0 ∈ src := by
      rw [ht]
      simp
    constructor
    · rintro ⟨-, hle⟩
      rw [ht, List.take_append, List.mem_append]
      right
      obtain ⟨k, hk⟩ : ∃ k, n - (cstr src).length = k + 1 := ⟨n - (cstr src).length - 1, by omega⟩
      rw [hk, List.take_succ_cons]
      exact List.mem_cons_self
    · intro h
      refine ⟨hmem, ?_⟩
      by_contra hgt
      rw [ht, List.take_append, List.mem_append] at h
      rcases h with h | h
      · exact hnul (List.mem_of_mem_take h)
      · rw [Nat.sub_eq_zero_of_le (by omega), List.take_zero] at h
        cases h

/-! ### The calls -/

private theorem length_zeros (n : Nat) : (zeros n).length = n := List.length_replicate

private theorem nul_mem_zeros {n : Nat} (h : 0 < n) : 0 ∈ zeros n := List.mem_replicate.2 ⟨Nat.pos_iff_ne_zero.1 h, rfl⟩

/-- An array that is longer than what has been copied to it still has a NUL. -/
private theorem nul_mem_strncpy (src : List CChar) {n : Nat} (h : n < bufSz) : 0 ∈ strncpy (zeros bufSz) src n := by
  rw [strncpy, zeros, List.drop_replicate]
  exact List.mem_append_right _ (nul_mem_zeros (by omega))

private theorem nul_mem_padded {s : List CChar} {n : Nat} (h : s.length < n) : 0 ∈ padded n s :=
  List.mem_append_right _ (nul_mem_zeros (by omega))

private theorem stops_drop_receive (datagram : List CChar) {k n : Nat} (h : k + n ≤ bufSz + idSz) :
    Stops ((receive datagram).drop k) n := by
  right
  rw [List.length_drop, length_receive]
  omega

private theorem comConnectOps_inBounds (datagram : List CChar) :
    ∀ op ∈ comConnectOps (receive datagram), op.InBounds := by
  have hnul := nul_mem_strncpy ((receive datagram).drop connect.length) (n := idSz) (by decide)
  intro op hop
  simp only [comConnectOps, List.mem_cons, List.not_mem_nil, or_false] at hop
  rcases hop with rfl | rfl | rfl
  · exact ⟨stops_drop_receive datagram (by decide), by rw [length_zeros]; decide⟩
  · exact hnul
  · exact hnul

/-- What `decypher` makes of a buffer in which `strcpy` finds a NUL. -/
theorem decypher_eq_some {buffer : List CChar} (h : 0 ∈ (buffer.drop (idSz - 1)).take bufSz) :
    (cstr (buffer.drop (idSz - 1))).length < bufSz ∧ decypher buffer =
      some (atoi (strncpy (zeros bufSz) buffer (idSz - 1)), strncpy (zeros bufSz) buffer (idSz - 1),
        padded bufSz (cstr (buffer.drop (idSz - 1)))) := by
  obtain ⟨hmem, hlen⟩ := strcpy_inBounds_iff.2 h
  refine ⟨by omega, ?_⟩
  rw [decypher, strcpy_zeros hmem (by omega)]
  rfl

private theorem masterHandlerOps_inBounds (calls : Calls) (s : Master) {datagram : List CChar}
    (h : 0 ∈ ((receive datagram).drop (idSz - 1)).take bufSz) :
    ∀ op ∈ masterHandlerOps calls (receive datagram) s, op.InBounds := by
  obtain ⟨hlen, hdecypher⟩ := decypher_eq_some h
  have hid := nul_mem_strncpy (receive datagram) (n := idSz - 1) (by decide)
  have hpayload := nul_mem_padded hlen
  have hcopy : 0 ∈ (receive datagram).drop (idSz - 1) ∧
      (cstr ((receive datagram).drop (idSz - 1))).length + 1 ≤ (zeros bufSz).length := by
    rw [length_zeros]
    exact strcpy_inBounds_iff.2 h
  intro op hop
  simp only [masterHandlerOps, decypherOps, hdecypher, List.mem_append, List.mem_cons, List.not_mem_nil,
    or_false] at hop
  rcases hop with ((rfl | rfl) | rfl) | hop
  · exact ⟨stops_drop_receive datagram (k := 0) (by decide), by rw [length_zeros]; decide⟩
  · exact hcopy
  · exact hid
  · split at hop
    · cases hop
    · split at hop
      · cases hop
      · rcases List.mem_cons.1 hop with rfl | hop
        · exact hpayload
        · split at hop
          · cases hop
          · rw [List.mem_singleton.1 hop]
            exact ⟨.inl hpayload, .inl (by decide)⟩

private theorem strcpy_mem_masterHandlerOps (calls : Calls) (buffer : List CChar) (s : Master) :
    .strcpy (zeros bufSz) (buffer.drop (idSz - 1)) ∈ masterHandlerOps calls buffer s := by
  simp [masterHandlerOps, decypherOps]

/-- For every datagram, of any length and content, and in every state of the master: all string functions find the end
of their sources and stay in their destinations if and only if the datagram is a command, is shorter than 265 bytes, or
has a NUL among the 256 bytes behind the id. -/
theorem all_inBounds_iff (calls : Calls) (datagram : List CChar) (s : Master) :
    (∀ op ∈ handlerOps calls datagram s, op.InBounds) ↔ Copies datagram := by
  unfold handlerOps Copies
  dsimp only
  by_cases hhello : strcmp (receive datagram) hello = 0
  · rw [if_pos hhello]
    exact iff_of_true (fun op hop => by cases hop) (.inl hhello)
  · rw [if_neg hhello]
    by_cases hconnect : strncmp connect.length (receive datagram) connect = 0
    · rw [if_pos hconnect]
      exact iff_of_true (comConnectOps_inBounds datagram) (.inr (.inl hconnect))
    · rw [if_neg hconnect, or_iff_right hhello, or_iff_right hconnect, ← nul_mem_receive_iff]
      constructor
      · intro hall
        have hcopy := hall _ (strcpy_mem_masterHandlerOps calls (receive datagram) s)
        rw [StringOp.InBounds, length_zeros] at hcopy
        exact strcpy_inBounds_iff.1 hcopy
      · exact masterHandlerOps_inBounds calls s

/-- The master goes on with a datagram if and only if the string functions stay in their arrays. -/
theorem serverHandler_isSome_iff (calls : Calls) (datagram : List CChar) (s : Master) :
    (serverHandler calls datagram s).isSome ↔ Copies datagram := by
  unfold serverHandler Copies
  dsimp only
  by_cases hhello : strcmp (receive datagram) hello = 0
  · rw [if_pos hhello]
    exact iff_of_true rfl (.inl hhello)
  · rw [if_neg hhello]
    by_cases hconnect : strncmp connect.length (receive datagram) connect = 0
    · rw [if_pos hconnect]
      exact iff_of_true rfl (.inr (.inl hconnect))
    · rw [if_neg hconnect, or_iff_right hhello, or_iff_right hconnect, ← nul_mem_receive_iff, ← strcpy_inBounds_iff]
      simp only [masterHandler, decypher, Option.isSome_map, strcpy, length_zeros]
      split
      · exact iff_of_true rfl ‹_›
      · exact iff_of_false (by simp) ‹_›

/-- A datagram of 265 bytes without a NUL: `strcpy` stores 257 bytes. -/
theorem not_inBounds : ¬ ∀ op ∈ handlerOps .ok (List.replicate 265 (chr '1')) .start, op.InBounds := by
  intro h
  have hbuf : receive (List.replicate 265 (chr '1')) = List.replicate 265 (chr '1') ++ [0] := by decide +kernel
  have hops : .strcpy (zeros bufSz) (List.replicate 256 (chr '1') ++ [0]) ∈
      handlerOps .ok (List.replicate 265 (chr '1')) .start := by
    rw [handlerOps, hbuf, if_neg (by decide +kernel), if_neg (by decide +kernel)]
    exact strcpy_mem_masterHandlerOps .ok (List.replicate 265 (chr '1') ++ [0]) .start
  have hcopy := (h _ hops).2
  rw [cstr_append_nul (by decide +kernel), List.length_replicate, length_zeros] at hcopy
  exact absurd hcopy (by decide)

end UnixTasks.Udp
