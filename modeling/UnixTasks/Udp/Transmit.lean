import UnixTasks.Udp.Child
import UnixTasks.Udp.Messages

/-!
# A command line from the client to the child

The client encrypts its whole buffer and then treats it as a string, so a key byte in the line cuts it off.

* (`transmit_of_mem`) a line with the key byte arrives as another one;
* (`transmit_of_notMem`) any other line arrives, unless the client takes it for its own command;
* (`transmit_eq_iff`) exactly the lines that arrive.
-/

namespace UnixTasks.Udp

open CChar CString

/-- A padded line, encrypted: the padding becomes the key. -/
theorem map_xor_padded (K : CChar) (n : Nat) (s : List CChar) :
    (padded n s).map (· ^^^ K) = s.map (· ^^^ K) ++ List.replicate (n - s.length) K := by
  simp [padded, zeros]

section Transmit

variable {K : CChar} {id line : List CChar} (beyond beyond' : List CChar)

/-- The datagram that the client formats: its id, and 246 characters of the text. -/
theorem snprintf2_take (hid : id.length = idSz - 1) (hnul : 0 ∉ id) (n : Nat) (s : List CChar) :
    ∃ tail, NulTail tail ∧
      (snprintf2 (zeros n) bufSz id s).take bufSz = id ++ (cstr s).take (bufSz - idSz) ++ tail := by
  let u := (cstr s).take (bufSz - idSz)
  have hu : u.length ≤ 246 := List.length_take_le ..
  have hid9 : id.length = 9 := hid
  have htext : (cstr id ++ cstr s).take (bufSz - 1) = id ++ u := by
    rw [cstr_of_notMem hnul, List.take_append, List.take_of_length_le (by unfold bufSz; omega), hid9]
    rfl
  obtain ⟨k, hk⟩ : ∃ k, bufSz - (id ++ u).length = k + 1 :=
    ⟨bufSz - (id ++ u).length - 1, by rw [List.length_append]; unfold bufSz; omega⟩
  refine ⟨_, ?_, by rw [snprintf2, htext, List.take_append, List.take_of_length_le (l := id ++ u) (by omega)]⟩
  rw [hk, List.take_succ_cons]
  intro c hc
  exact (Option.some.inj hc).symm

/-- The text that the client formats, cut to 246 characters, is what the master writes to the pipe. -/
private theorem decypher_snprintf2 (hid : id.length = idSz - 1) (hnul : 0 ∉ id) (s : List CChar) :
    decypher (receive ((snprintf2 (zeros (bufSz + idSz)) bufSz id s).take bufSz)) =
      some (atoi id, padded bufSz id, padded bufSz ((cstr s).take (bufSz - idSz))) := by
  let u := (cstr s).take (bufSz - idSz)
  have hu : u.length ≤ 246 := List.length_take_le ..
  have hid9 : id.length = 9 := hid
  have hunul : 0 ∉ u := fun h => nul_notMem_cstr s (List.mem_of_mem_take h)
  obtain ⟨tail, htail, hsend⟩ := snprintf2_take hid hnul (bufSz + idSz) s
  obtain ⟨t, ht⟩ := receive_append (s := id ++ u) (by rw [List.length_append]; unfold bufSz idSz; omega) htail
  rw [hsend, ht, List.append_assoc, decypher_eq hid hunul (by unfold bufSz; omega), cstr_of_notMem hnul]

/-- The client does not take a line for its own command. -/
def NotBroadcast (K : CChar) (line : List CChar) : Prop :=
  (padded bufSz line).take broadcast.length ≠ broadcast.map (· ^^^ K)

instance : Decidable (NotBroadcast K line) := inferInstanceAs (Decidable (_ ≠ _))

/-- The client looks for "broadcast" in the encrypted buffer. -/
theorem strncmp_broadcast_iff (hline : line.length ≤ bufSz) :
    strncmp broadcast.length (crypto K (padded bufSz line)) broadcast = 0 ↔ ¬ NotBroadcast K line := by
  have hcmp : (cstr broadcast).take broadcast.length = broadcast := by decide
  rw [strncmp_eq_zero_iff, hcmp, take_cstr_eq_iff (by decide), crypto_eq_map (length_padded hline), ← List.map_take,
    NotBroadcast, not_not]
  constructor
  · intro h
    have hdec := congrArg (List.map (· ^^^ K)) h
    rwa [map_xor_xor] at hdec
  · intro h
    rw [h, map_xor_xor]

/-- What the child gets is determined by the first 246 characters of the string in the encrypted buffer. -/
theorem transmit_eq (hid : id.length = idSz - 1) (hnul : 0 ∉ id) (hline : line.length ≤ bufSz)
    (hsend : NotBroadcast K line) :
    transmit K id line beyond beyond' = some (childCommand K
      (padded bufSz ((cstr ((padded bufSz line).map (· ^^^ K) ++ beyond)).take (bufSz - idSz))) beyond') := by
  have hcmp := mt (strncmp_broadcast_iff hline).1 (not_not.2 hsend)
  unfold transmit sender
  rw [List.take_of_length_le hline]
  simp only [hcmp, if_false]
  rw [decypher_snprintf2 hid hnul, crypto_eq_map (length_padded hline)]
  rfl

private theorem childCommand_padded {s : List CChar} (hs : s.length ≤ bufSz) :
    childCommand K (padded bufSz s) beyond' =
      cstr (s.map (· ^^^ K) ++ List.replicate (bufSz - s.length) K ++ beyond') := by
  rw [childCommand, crypto_eq_map (length_padded hs), map_xor_padded]

/-- A line that has the key byte in it is cut off there, and the child reads on to the end of its buffer. -/
theorem transmit_of_mem (hid : id.length = idSz - 1) (hnul : 0 ∉ id) (hline : line.length ≤ 245) (hlnul : 0 ∉ line)
    (hK : K ∈ line) (hsend : NotBroadcast K line) : transmit K id line beyond beyond' ≠ some line := by
  have hlen : line.length ≤ bufSz := by
    unfold bufSz
    omega
  have hK0 : 0 ≠ K := fun h => hlnul (h ▸ hK)
  obtain ⟨a, b, hsplit, ha⟩ := List.eq_append_cons_of_mem hK
  have halen : a.length < line.length := by simp [hsplit]
  have hanul : 0 ∉ a := fun h => hlnul (hsplit ▸ List.mem_append_left _ h)
  have hcut : cstr ((padded bufSz line).map (· ^^^ K) ++ beyond) = a.map (· ^^^ K) := by
    have hmap : line.map (· ^^^ K) = a.map (· ^^^ K) ++ 0 :: b.map (· ^^^ K) := by
      rw [hsplit, List.map_append, List.map_cons, xor_eq_nul.2 rfl]
    rw [map_xor_padded, hmap, List.append_assoc, List.append_assoc, List.cons_append,
      cstr_append_nul fun h => ha (nul_mem_map_xor.1 h)]
  have hshort : (a.map (· ^^^ K)).length ≤ bufSz - idSz := by
    rw [List.length_map]
    unfold bufSz idSz
    omega
  rw [transmit_eq beyond beyond' hid hnul hlen hsend, hcut, List.take_of_length_le hshort,
    childCommand_padded beyond' (hshort.trans (Nat.sub_le ..)), map_xor_xor, List.append_assoc,
    cstr_append hanul, cstr_append fun h => hK0 (List.eq_of_mem_replicate h)]
  intro h
  have hlength := congrArg List.length (Option.some.inj h)
  simp only [List.length_append, List.length_map, List.length_replicate] at hlength
  unfold bufSz at hlength
  omega

/-- A line without the key byte arrives as it was typed. -/
theorem transmit_of_notMem (hid : id.length = idSz - 1) (hnul : 0 ∉ id) (hline : line.length ≤ 245) (hlnul : 0 ∉ line)
    (hK : K ∉ line) (hsend : NotBroadcast K line) : transmit K id line beyond beyond' = some line := by
  have hlen : line.length ≤ bufSz := by
    unfold bufSz
    omega
  obtain ⟨n, hn⟩ : ∃ n, bufSz - line.length = n + 1 := ⟨bufSz - line.length - 1, by unfold bufSz; omega⟩
  obtain ⟨m, hm⟩ : ∃ m, bufSz - idSz - line.length = m + 1 :=
    ⟨bufSz - idSz - line.length - 1, by unfold bufSz idSz; omega⟩
  have henc : 0 ∉ line.map (· ^^^ K) := fun h => hK (nul_mem_map_xor.1 h)
  -- the master writes the line and, unless the key is 0, a part of the padding
  have hsent : ∃ s, s.length ≤ bufSz ∧
      (cstr ((padded bufSz line).map (· ^^^ K) ++ beyond)).take (bufSz - idSz) = s ∧
      ∃ t, s.map (· ^^^ K) ++ List.replicate (bufSz - s.length) K = line ++ 0 :: t := by
    rw [map_xor_padded]
    by_cases hK0 : K = 0
    · subst hK0
      refine ⟨line.map (· ^^^ 0), by simpa using hlen, ?_, ?_⟩
      · rw [hn, List.replicate_succ, List.append_assoc, List.cons_append, cstr_append_nul henc,
          List.take_of_length_le (by rw [List.length_map]; unfold bufSz idSz; omega)]
      · rw [List.length_map, hn, map_xor_xor, List.replicate_succ]
        exact ⟨_, rfl⟩
    · refine ⟨line.map (· ^^^ K) ++ List.replicate (m + 1) K, ?_, ?_, ?_⟩
      · rw [List.length_append, List.length_map, List.length_replicate]
        unfold bufSz at hn hm ⊢
        omega
      · have hpad : 0 ∉ line.map (· ^^^ K) ++ List.replicate (bufSz - line.length) K := by
          rw [List.mem_append, not_or]
          exact ⟨henc, fun h => hK0 (List.eq_of_mem_replicate h).symm⟩
        have hroom : bufSz - idSz ≤ (line.map (· ^^^ K) ++ List.replicate (bufSz - line.length) K).length := by
          rw [List.length_append, List.length_map, List.length_replicate]
          omega
        have hmin : min (m + 1) (bufSz - line.length) = m + 1 := by
          unfold bufSz idSz at *
          omega
        rw [cstr_append hpad, List.take_append_of_le_length hroom, List.take_append, List.length_map, hm,
          List.take_replicate, hmin, List.take_of_length_le (by rw [List.length_map]; omega)]
      · rw [List.map_append, map_xor_xor, List.map_replicate, xor_eq_nul.2 rfl, List.replicate_succ]
        exact ⟨_, by rw [List.append_assoc, List.cons_append]⟩
  obtain ⟨s, hs, hsent, t, ht⟩ := hsent
  rw [transmit_eq beyond beyond' hid hnul hlen hsend, hsent, childCommand_padded beyond' hs, ht, List.append_assoc,
    List.cons_append, cstr_append_nul hlnul]

/-- The command that the child executes is the line that the client has read, if and only if the key byte is not in
the line and the line does not begin like an encrypted "broadcast". -/
theorem transmit_eq_iff (K : CChar) (id line beyond beyond' : List CChar) (hid : id.length = idSz - 1) (hnul : 0 ∉ id)
    (hline : line.length ≤ 245) (hlnul : 0 ∉ line) :
    transmit K id line beyond beyond' = some line ↔ K ∉ line ∧ NotBroadcast K line := by
  constructor
  · intro h
    have hsend : NotBroadcast K line := by
      by_contra hno
      have hlen : line.length ≤ bufSz := by unfold bufSz; omega
      have hcmp := (strncmp_broadcast_iff hlen).2 hno
      rw [transmit, sender, List.take_of_length_le (by unfold bufSz; omega)] at h
      simp only [hcmp, if_true] at h
      cases h
    exact ⟨fun hK => transmit_of_mem beyond beyond' hid hnul hline hlnul hK hsend h, hsend⟩
  · rintro ⟨hK, hsend⟩
    exact transmit_of_notMem beyond beyond' hid hnul hline hlnul hK hsend

/-- A session whose key is 'a': "ls" arrives. -/
theorem transmit_eq_iff_ls :
    transmit (chr 'a') (List.replicate 9 (chr '1')) (['l', 's', '\n'].map chr) [0] [0] =
        some (['l', 's', '\n'].map chr) ↔
      chr 'a' ∉ ['l', 's', '\n'].map chr ∧ NotBroadcast (chr 'a') (['l', 's', '\n'].map chr) :=
  transmit_eq_iff (chr 'a') (List.replicate 9 (chr '1')) (['l', 's', '\n'].map chr) [0] [0] (by decide) (by decide)
    (by decide) (by decide)

/-- In the same session "ps avx" does not: the child gets "ps " and 253 key bytes. -/
theorem transmit_ps_avx :
    transmit (chr 'a') (List.replicate 9 (chr '1')) (['p', 's', ' ', 'a', 'v', 'x', '\n'].map chr) [0] [0] =
        some (['p', 's', ' '].map chr ++ List.replicate 253 (chr 'a')) ∧
      transmit (chr 'a') (List.replicate 9 (chr '1')) (['p', 's', ' ', 'a', 'v', 'x', '\n'].map chr) [0] [0] ≠
        some (['p', 's', ' ', 'a', 'v', 'x', '\n'].map chr) := by
  decide +kernel

end Transmit

end UnixTasks.Udp
