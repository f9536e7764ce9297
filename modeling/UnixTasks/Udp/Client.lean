import UnixTasks.Udp.Server

/-!
# client.c: the sender

`crypto` is applied in place to the whole buffer; what the string functions read beyond an array that holds no NUL is
an argument (`beyond`).
-/

namespace UnixTasks.Udp

open CChar CString

/-- "broadcast", and "quit" as the client compares it. -/
def broadcast : List CChar := ['b', 'r', 'o', 'a', 'd', 'c', 'a', 's', 't'].map chr

def quitCmd : List CChar := ['q', 'u', 'i', 't'].map chr

/-- `crypto(buffer)` with the session key `K`. -/
def crypto (K : CChar) (buffer : List CChar) : List CChar :=
  (buffer.take bufSz).map (· ^^^ K) ++ buffer.drop bufSz

/-- What `sender` does with a line. -/
inductive Sender where
  /-- The client's own command. -/
  | broadcast
  /-- A datagram to the server; the client exits if `quits`. -/
  | sendto (datagram : List CChar) (quits : Bool)
  deriving DecidableEq, Repr

/-- `sender`, when `read` has returned `line`. -/
def sender (K : CChar) (id line beyond : List CChar) : Sender :=
  let buffer := crypto K (padded bufSz (line.take bufSz))
  let sendbuf := snprintf2 (zeros (bufSz + idSz)) bufSz id (buffer ++ beyond)
  if strncmp broadcast.length buffer broadcast = 0 then .broadcast
  else .sendto (sendbuf.take bufSz) (strncmp quitCmd.length (crypto K buffer) quitCmd = 0)

/-- `child_handle`: the string that `execution` gets when `read` has returned `data` from the pipe. -/
def childCommand (K : CChar) (data beyond : List CChar) : List CChar := cstr (crypto K data ++ beyond)

/-- A line on its way from the client through the master to the child; `none` when the client does not send it. -/
def transmit (K : CChar) (id line beyond beyond' : List CChar) : Option (List CChar) :=
  match sender K id line beyond with
  | .broadcast => none
  | .sendto datagram _ =>
    (decypher (receive datagram)).map fun (_, _, bufferWithoutPid) => childCommand K bufferWithoutPid beyond'

/-! ### Encrypted arrays -/

theorem map_xor_xor (K : CChar) (s : List CChar) : (s.map (· ^^^ K)).map (· ^^^ K) = s := by
  rw [List.map_map]
  conv_rhs => rw [← List.map_id s]
  refine List.map_congr_left fun c _ => ?_
  show (c ^^^ K) ^^^ K = c
  rw [BitVec.xor_assoc, BitVec.xor_self, BitVec.xor_zero]

theorem xor_eq_nul {c K : CChar} : c ^^^ K = 0 ↔ c = K := BitVec.xor_eq_zero_iff

theorem nul_mem_map_xor {K : CChar} {s : List CChar} : 0 ∈ s.map (· ^^^ K) ↔ K ∈ s := by
  simp

theorem crypto_eq_map {K : CChar} {s : List CChar} (h : s.length = bufSz) : crypto K s = s.map (· ^^^ K) := by
  rw [crypto, List.take_of_length_le (by omega), List.drop_of_length_le (by omega), List.append_nil]

theorem length_crypto (K : CChar) (s : List CChar) : (crypto K s).length = s.length := by
  rw [crypto, List.length_append, List.length_map, ← List.length_append, List.take_append_drop]

theorem crypto_crypto {K : CChar} {s : List CChar} (h : s.length = bufSz) : crypto K (crypto K s) = s := by
  rw [crypto_eq_map (by rw [length_crypto, h]), crypto_eq_map h, map_xor_xor]

end UnixTasks.Udp
