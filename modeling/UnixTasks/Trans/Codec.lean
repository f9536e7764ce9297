import UnixTasks.Trans.Machine

/-!
# The payloads of a file

The sender cuts its file into payloads of eight bytes and puts a NUL behind the last, shorter one; the receiver writes
what is before the first NUL of the last payload.

* (`receive_payloads`) what is written is the file without what follows a NUL in its last bytes;
* (`receive_payloads_iff`) so it is the file if and only if there is no NUL among them.
-/

namespace UnixTasks.Trans

open CString

/-- The loop of the sender: what it queues for the rest of its file, when `buf` holds the last payload. -/
def payloads (file buf : List CChar) : List (List CChar) :=
  let ret := min ptrSize file.length
  let buf := file.take ptrSize ++ buf.drop ret
  if ret < ptrSize then [buf.set ret 0]
  else buf :: payloads (file.drop ptrSize) buf
termination_by file.length
decreasing_by
  simp only [List.length_drop, ptrSize] at *
  omega

/-- What the receiver writes: the eight bytes of every payload but the last, and `strlen` bytes of the last. -/
def receive : List (List CChar) → List CChar
  | [] => []
  | [mem] => cstr mem
  | mem :: p :: ps => mem.take ptrSize ++ receive (p :: ps)

/-- The bytes of the last payload: what is left when the file is cut. -/
def lastBytes (file : List CChar) : List CChar := file.drop (ptrSize * (file.length / ptrSize))

private theorem payloads_of_lt {file : List CChar} (h : file.length < ptrSize) (buf : List CChar) :
    payloads file buf = [(file ++ buf.drop file.length).set file.length 0] := by
  rw [payloads]
  simp only [Nat.min_eq_right h.le, h, if_true, List.take_of_length_le h.le]

private theorem payloads_of_le {file : List CChar} (h : ptrSize ≤ file.length) (buf : List CChar) :
    payloads file buf = (file.take ptrSize ++ buf.drop ptrSize) ::
      payloads (file.drop ptrSize) (file.take ptrSize ++ buf.drop ptrSize) := by
  rw [payloads]
  simp only [Nat.min_eq_left h, lt_irrefl, if_false]

private theorem payloads_ne_nil (file buf : List CChar) : payloads file buf ≠ [] := by
  rcases Nat.lt_or_ge file.length ptrSize with h | h
  · rw [payloads_of_lt h]
    simp
  · rw [payloads_of_le h]
    simp

private theorem lastBytes_of_lt {file : List CChar} (h : file.length < ptrSize) : lastBytes file = file := by
  rw [lastBytes, Nat.div_eq_of_lt h, Nat.mul_zero, List.drop_zero]

private theorem lastBytes_drop {file : List CChar} (h : ptrSize ≤ file.length) :
    lastBytes (file.drop ptrSize) = lastBytes file := by
  have hpos : 0 < ptrSize := by decide
  have hdiv : file.length / ptrSize = (file.length - ptrSize) / ptrSize + 1 := Nat.div_eq_sub_div hpos h
  rw [lastBytes, lastBytes, List.length_drop, List.drop_drop, hdiv, Nat.mul_add, Nat.mul_one, Nat.add_comm]

/-- What is written, and what is missing behind it: the last bytes from their first NUL on. -/
theorem receive_payloads {file buf : List CChar} (hbuf : buf.length = ptrSize) :
    ∃ whole, file = whole ++ lastBytes file ∧ receive (payloads file buf) = whole ++ cstr (lastBytes file) := by
  induction hn : file.length using Nat.strong_induction_on generalizing file buf with
  | _ n ih =>
    rcases Nat.lt_or_ge file.length ptrSize with h | h
    · refine ⟨[], by rw [lastBytes_of_lt h, List.nil_append], ?_⟩
      obtain ⟨b, rest, hb⟩ : ∃ b rest, buf.drop file.length = b :: rest := by
        refine List.exists_cons_of_ne_nil fun hnil => ?_
        have hlen := congrArg List.length hnil
        rw [List.length_drop, List.length_nil] at hlen
        omega
      rw [payloads_of_lt h, lastBytes_of_lt h, receive, hb, List.set_append_right _ _ (le_refl _), Nat.sub_self,
        List.set_cons_zero, cstr_append_nul', List.nil_append]
    · have hbuf' : (file.take ptrSize ++ buf.drop ptrSize).length = ptrSize := by
        rw [List.length_append, List.length_take, List.length_drop]
        omega
      have hlt : (file.drop ptrSize).length < n := by
        rw [List.length_drop, ← hn]
        have hpos : 0 < ptrSize := by decide
        omega
      obtain ⟨whole, hfile, hreceive⟩ := ih _ hlt hbuf' rfl
      rw [lastBytes_drop h] at hfile hreceive
      refine ⟨file.take ptrSize ++ whole, ?_, ?_⟩
      · rw [List.append_assoc, ← hfile, List.take_append_drop]
      · obtain ⟨p, ps, hps⟩ := List.exists_cons_of_ne_nil
          (payloads_ne_nil (file.drop ptrSize) (file.take ptrSize ++ buf.drop ptrSize))
        have htake : (file.take ptrSize ++ buf.drop ptrSize).take ptrSize = file.take ptrSize := by
          rw [List.take_append_of_le_length, List.take_take, Nat.min_self]
          rw [List.length_take]
          omega
        rw [payloads_of_le h, hps, receive, ← hps, hreceive, htake, List.append_assoc]

/-- The receiver writes the file if and only if there is no NUL among the last `length % 8` bytes. -/
theorem receive_payloads_iff {file buf : List CChar} (hbuf : buf.length = ptrSize) :
    receive (payloads file buf) = file ↔ 0 ∉ lastBytes file := by
  obtain ⟨whole, hfile, hreceive⟩ : ∃ whole, file = whole ++ lastBytes file ∧
    receive (payloads file buf) = whole ++ cstr (lastBytes file) := receive_payloads hbuf
  constructor
  · intro h
    have hcstr : cstr (lastBytes file) = lastBytes file := List.append_cancel_left (hreceive.symm.trans (h.trans hfile))
    rw [← hcstr]
    exact nul_notMem_cstr _
  · intro h
    rw [hreceive, cstr_of_notMem h, ← hfile]

/-- Nine bytes, the last of them not a NUL. -/
theorem receive_payloads_iff_nine :
    receive (payloads [0, 1, 2, 3, 4, 5, 6, 7, 8] (zeros 8)) = [0, 1, 2, 3, 4, 5, 6, 7, 8] :=
  (receive_payloads_iff (by decide : (zeros 8).length = ptrSize)).2 (by decide)

/-- Of a file of one byte, a NUL, nothing is written. -/
theorem receive_payloads_nul : receive (payloads [0] (zeros 8)) = [] ∧ receive (payloads [0] (zeros 8)) ≠ [0] := by
  have hpayloads : payloads [0] (zeros 8) = [zeros 8] := payloads_of_lt (by decide) _
  rw [hpayloads]
  exact ⟨rfl, by decide⟩

end UnixTasks.Trans
