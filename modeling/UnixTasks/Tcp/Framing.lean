import Mathlib.Algebra.Order.BigOperators.Group.List
import Mathlib.Algebra.Order.Ring.Nat
import UnixTasks.Udp.Child

/-!
# tcp.c: the messages in the stream

A client of the TCP server writes 256 encrypted bytes for each line, and the child takes what one `read` returns for one
message.  A stream does not keep the bounds of what was written to it, and at its end `read` returns 0 for ever, which
is no error.

`bash_work` and the failures of `execution` are arguments, by the number of the message.

* (`childHandle`) the buffers that the child passes to `execution`;
* (`WholeReads`, `StopsAtLast`) the condition on the segmentation and on the child;
* (`childHandle_eq_iff`) what the child executes, by what it reads;
* (`executed_iff`) exactly the segmentations in which it executes what was written.
-/

namespace UnixTasks.Tcp

open CChar CString Udp

/-- `child_handle`: the buffers that it passes to `execution`, from the message `i` on, when its reads return `reads`.
It exits with "quit" and returns when `execution` fails; otherwise `execution` clears the buffer. -/
def childHandle (K : CChar) (bashWork fails : Nat → Bool) : Nat → List CChar → List (List CChar) → List (List CChar)
  | _, _, [] => []
  | i, childBuf, data :: reads =>
    let childBuf := crypto K (data ++ childBuf.drop data.length)
    childBuf ::
      if cmpComm (bashWork i) childBuf = .quit then []
      else if fails i then []
      else childHandle K bashWork fails (i + 1) (zeros bufSz) reads

/-- The child executes nothing after the message `i`. -/
def Stops (fails : Nat → Bool) (i : Nat) (message : List CChar) : Prop := Quits message ∨ fails i = true

instance (fails : Nat → Bool) (i : Nat) (message : List CChar) : Decidable (Stops fails i message) :=
  inferInstanceAs (Decidable (_ ∨ _))

/-- The child stops at the last one of the messages, of which the first has the number `i`, and not before. -/
def StopsAtLast (fails : Nat → Bool) : Nat → List (List CChar) → Prop
  | _, [] => False
  | i, m :: ms => if Stops fails i m then ms = [] else StopsAtLast fails (i + 1) ms

/-- One read returns each message: all of its bytes, but for NULs at the end of what the client wrote. -/
def WholeReads (K : CChar) (ms reads : List (List CChar)) : Prop :=
  (reads.take ms.length).map (padded bufSz) = ms.map (crypto K)

variable {K : CChar} {bashWork fails : Nat → Bool}

private theorem childHandle_cons (i : Nat) (data : List CChar) (reads : List (List CChar)) :
    childHandle K bashWork fails i (zeros bufSz) (data :: reads) = crypto K (padded bufSz data) ::
      if Stops fails i (crypto K (padded bufSz data)) then []
      else childHandle K bashWork fails (i + 1) (zeros bufSz) reads := by
  have hread : data ++ (zeros bufSz).drop data.length = padded bufSz data := by
    rw [padded, zeros, zeros, List.drop_replicate]
  rw [childHandle, hread]
  simp only [cmpComm_eq_quit_iff]
  by_cases hq : Quits (crypto K (padded bufSz data))
  · have hstops : Stops fails i (crypto K (padded bufSz data)) := .inl hq
    rw [if_pos hq, if_pos hstops]
  · rw [if_neg hq]
    by_cases hf : fails i = true
    · have hstops : Stops fails i (crypto K (padded bufSz data)) := .inr hf
      rw [if_pos hf, if_pos hstops]
    · have hgoes : ¬ Stops fails i (crypto K (padded bufSz data)) := not_or.2 ⟨hq, hf⟩
      rw [if_neg hf, if_neg hgoes]

/-- What the child executes, when it could read more than that. -/
theorem childHandle_eq_iff {i : Nat} {ms reads : List (List CChar)} (hms : ∀ m ∈ ms, m.length = bufSz)
    (hreads : ∀ data ∈ reads, data.length ≤ bufSz) (hmore : ms.length < reads.length) :
    childHandle K bashWork fails i (zeros bufSz) reads = ms ↔ WholeReads K ms reads ∧ StopsAtLast fails i ms := by
  induction reads generalizing i ms with
  | nil => exact absurd hmore (Nat.not_lt_zero _)
  | cons data reads ih =>
    rw [childHandle_cons]
    cases ms with
    | nil => exact iff_of_false (by simp) fun h => h.2
    | cons m ms =>
      have hm : m.length = bufSz := hms m List.mem_cons_self
      have hdata : (padded bufSz data).length = bufSz := length_padded (hreads data List.mem_cons_self)
      -- the first message is the first read
      have hfirst : crypto K (padded bufSz data) = m ↔ padded bufSz data = crypto K m := by
        constructor
        · rintro rfl
          rw [crypto_crypto hdata]
        · intro h
          rw [h, crypto_crypto hm]
      have hwhole : WholeReads K (m :: ms) (data :: reads) ↔
          padded bufSz data = crypto K m ∧ WholeReads K ms reads := by
        unfold WholeReads
        rw [List.length_cons, List.take_succ_cons, List.map_cons, List.map_cons, List.cons.injEq]
      have ih' := ih (i := i + 1) (fun m hm => hms m (List.mem_cons_of_mem _ hm))
        (fun data hdata => hreads data (List.mem_cons_of_mem _ hdata)) (by simpa using hmore)
      rw [List.cons.injEq, hwhole, hfirst, and_assoc, StopsAtLast]
      refine and_congr_right fun h => ?_
      rw [hfirst.2 h]
      by_cases hstops : Stops fails i m
      · rw [if_pos hstops, if_pos hstops]
        constructor
        · rintro rfl
          exact ⟨rfl, rfl⟩
        · rintro ⟨-, rfl⟩
          rfl
      · rw [if_neg hstops, if_neg hstops]
        exact ih'

/-- For every key and every sequence of messages that the client writes, and every segmentation of their bytes into
reads of 1 to 256 bytes, at whose end `n` reads find the end of the stream: the child passes to `execution` exactly the
messages of the client if and only if one read returns each message and the child stops at the last one. -/
theorem executed_iff {ms chunks : List (List CChar)} {n : Nat} (hms : ∀ m ∈ ms, m.length = bufSz)
    (hchunks : ∀ data ∈ chunks, 1 ≤ data.length ∧ data.length ≤ bufSz)
    (hstream : chunks.flatten = (ms.map (crypto K)).flatten) (hn : 1 ≤ n) :
    childHandle K bashWork fails 0 (zeros bufSz) (chunks ++ List.replicate n []) = ms ↔
      WholeReads K ms chunks ∧ StopsAtLast fails 0 ms := by
  -- no read returns more than the bytes of one message
  have hlen : ms.length ≤ chunks.length := by
    have hwritten : (ms.map (crypto K)).flatten.length = ms.length * bufSz := by
      rw [List.length_flatten, List.map_map, List.sum_eq_card_nsmul _ bufSz, List.length_map, Nat.nsmul_eq_mul]
      intro k hk
      obtain ⟨m, hm, rfl⟩ := List.mem_map.1 hk
      exact (length_crypto K m).trans (hms m hm)
    have hread : chunks.flatten.length ≤ chunks.length * bufSz := by
      rw [List.length_flatten]
      refine (List.sum_le_card_nsmul _ bufSz fun k hk => ?_).trans (by rw [List.length_map, Nat.nsmul_eq_mul])
      obtain ⟨data, hdata, rfl⟩ := List.mem_map.1 hk
      exact (hchunks data hdata).2
    rw [hstream, hwritten] at hread
    exact Nat.le_of_mul_le_mul_right hread (by decide)
  have hreads : ∀ data ∈ chunks ++ List.replicate n [], data.length ≤ bufSz := by
    intro data hdata
    rcases List.mem_append.1 hdata with hdata | hdata
    · exact (hchunks data hdata).2
    · rw [List.eq_of_mem_replicate hdata]
      exact Nat.zero_le _
  have hmore : ms.length < (chunks ++ List.replicate n []).length := by
    rw [List.length_append, List.length_replicate]
    omega
  have hwhole : WholeReads K ms (chunks ++ List.replicate n []) ↔ WholeReads K ms chunks := by
    unfold WholeReads
    rw [List.take_append_of_le_length hlen]
  rw [childHandle_eq_iff hms hreads hmore, hwhole]

/-- The key is 'a': the line "quit" is read whole, and nothing after it. -/
theorem executed_iff_quit :
    childHandle (chr 'a') (fun _ => false) (fun _ => false) 0 (zeros bufSz)
        ([crypto (chr 'a') (padded bufSz quit)] ++ List.replicate 1 []) = [padded bufSz quit] ↔
      WholeReads (chr 'a') [padded bufSz quit] [crypto (chr 'a') (padded bufSz quit)] ∧
        StopsAtLast (fun _ => false) 0 [padded bufSz quit] :=
  executed_iff (by decide +kernel) (by decide +kernel) rfl (by decide)

/-- With the same key the line "ls" is executed, and then 256 key bytes at the end of the stream; and when two reads
return its two halves, neither of them is the line. -/
theorem not_executed :
    childHandle (chr 'a') (fun _ => false) (fun _ => false) 0 (zeros bufSz)
        ([crypto (chr 'a') (padded bufSz [chr 'l', chr 's'])] ++ List.replicate 1 []) ≠
      [padded bufSz [chr 'l', chr 's']] ∧
    padded bufSz [chr 'l', chr 's'] ∉ childHandle (chr 'a') (fun _ => false) (fun _ => false) 0 (zeros bufSz)
        ([(crypto (chr 'a') (padded bufSz [chr 'l', chr 's'])).take 128,
          (crypto (chr 'a') (padded bufSz [chr 'l', chr 's'])).drop 128] ++ List.replicate 1 []) := by
  decide +kernel

end UnixTasks.Tcp
