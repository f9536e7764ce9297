import UnixTasks.Lib.Decimal
import UnixTasks.Udp.Messages
import UnixTasks.Udp.Rounds

/-!
# The ids of the clients

`gen_id` prints a number, puts zeros behind it and cuts the text to nine characters; the server reads a number from
these.  It is the first nine digits of a positive value, and the first eight of a negative one (`registered`).

* (`genId_header`) the nine characters are a header that the server can take off again, whatever follows;
* (`ids_differ_iff`) two clients have different numbers if and only if their values differ in these digits, and then
  they never have the same slot, unless one of them has the number 0, which does not occupy its slot.
-/

namespace UnixTasks.Udp

open CChar CString

/-- `gen_id`: the array `id`.  `temp` holds no NUL, so `snprintf` reads on behind it. -/
def genId (rid : Int) (beyond : List CChar) : List CChar :=
  let temp := List.replicate idSz (chr '0')
  snprintf2 (zeros idSz) idSz (intText rid) (temp ++ beyond)

/-- The id string of a client. -/
def idString (rid : Int) (beyond : List CChar) : List CChar := cstr (genId rid beyond)

/-- How many digits of the value the id keeps. -/
def kept (rid : Int) : Nat := if rid < 0 then 8 else 9

/-- The number that the server registers. -/
def registered (rid : Int) : Int :=
  if rid < 0 then -(leading (kept rid) rid.natAbs : Int) else leading (kept rid) rid.natAbs

/-- While the first client has the slot that a connect has given to it, no connect gives this slot to the second. -/
def NeverShares (id id' : List CChar) : Prop :=
  ∀ (calls calls' : Calls) (tail tail' : List CChar) (s t s' t' : Master), NulTail tail → NulTail tail' →
    s.step (calls, (Msg.connect id tail).datagram) = some t → 0 ≤ t.num →
    s'.mas[t.num.toNat]? = t.mas[t.num.toNat]? →
    s'.step (calls', (Msg.connect id' tail').datagram) = some t' → t'.num ≠ t.num

/-! ### The text -/

private theorem nul_notMem_digits {s : List CChar} (h : AllDigits s) : 0 ∉ s := fun h0 => absurd (h 0 h0) (by decide)

private theorem nul_notMem_intText (rid : Int) : 0 ∉ intText rid := by
  have hdigits := nul_notMem_digits (allDigits_natText rid.natAbs)
  rw [intText]
  split
  · rw [List.mem_cons, not_or]
    exact ⟨by decide, hdigits⟩
  · exact hdigits

private theorem nul_notMem_temp : 0 ∉ List.replicate idSz (chr '0') := by decide

/-- What is behind `temp` is cut off. -/
private theorem idString_eq (rid : Int) (beyond : List CChar) :
    idString rid beyond = (intText rid ++ List.replicate idSz (chr '0')).take (idSz - 1) := by
  have htake : (intText rid ++ (List.replicate idSz (chr '0') ++ cstr beyond)).take (idSz - 1) =
      (intText rid ++ List.replicate idSz (chr '0')).take (idSz - 1) := by
    rw [← List.append_assoc, List.take_append_of_le_length]
    rw [List.length_append, List.length_replicate]
    omega
  have hnul : 0 ∉ (intText rid ++ List.replicate idSz (chr '0')).take (idSz - 1) := by
    intro h
    rcases List.mem_append.1 (List.mem_of_mem_take h) with h | h
    · exact nul_notMem_intText rid h
    · exact nul_notMem_temp h
  rw [idString, genId, snprintf2, cstr_of_notMem (nul_notMem_intText rid), cstr_append nul_notMem_temp, htake,
    cstr_append_nul hnul]

private theorem length_idString (rid : Int) (beyond : List CChar) : (idString rid beyond).length = idSz - 1 := by
  rw [idString_eq, List.length_take, List.length_append, List.length_replicate]
  unfold idSz
  omega

private theorem idString_of_neg {rid : Int} (h : rid < 0) (beyond : List CChar) :
    idString rid beyond = chr '-' :: (natText rid.natAbs ++ List.replicate idSz (chr '0')).take 8 := by
  rw [idString_eq, intText, if_pos h]
  rfl

private theorem idString_of_nonneg {rid : Int} (h : ¬ rid < 0) (beyond : List CChar) :
    idString rid beyond = (natText rid.natAbs ++ List.replicate idSz (chr '0')).take 9 := by
  rw [idString_eq, intText, if_neg h]
  rfl

/-! ### The number -/

/-- The digits of the value that the id keeps. -/
private theorem digits_of_id (n : Nat) {w : Nat} (hw : w ≤ 9) :
    AllDigits ((natText n ++ List.replicate idSz (chr '0')).take w) ∧
      decimal ((natText n ++ List.replicate idSz (chr '0')).take w) = leading w n ∧ leading w n < 2 ^ 31 := by
  refine ⟨?_, decimal_take_natText n (by unfold idSz; omega), ?_⟩
  · intro c hc
    rcases List.mem_append.1 (List.mem_of_mem_take hc) with hc | hc
    · exact allDigits_natText n c hc
    · rw [List.eq_of_mem_replicate hc]
      decide
  · calc leading w n < 10 ^ w := leading_lt w n
      _ ≤ 10 ^ 9 := Nat.pow_le_pow_right (by decide) hw
      _ < 2 ^ 31 := by decide

private theorem atoi_idString (rid : Int) (beyond : List CChar) : atoi (idString rid beyond) = registered rid := by
  by_cases h : rid < 0
  · obtain ⟨hdigits, heq, hlt⟩ := digits_of_id rid.natAbs (w := 8) (by decide)
    rw [idString_of_neg h, atoi_minus hdigits (by omega), heq, registered, kept, if_pos h, if_pos h]
  · obtain ⟨hdigits, heq, hlt⟩ := digits_of_id rid.natAbs (w := 9) (by decide)
    rw [idString_of_nonneg h, atoi_digits hdigits (by omega), heq, registered, kept, if_neg h, if_neg h]

/-- The first digit is none of the zeros. -/
theorem le_registered {rid : Int} (h : rid ≠ 0) : 10 ^ 7 ≤ (registered rid).natAbs := by
  rw [registered, kept]
  split
  · have hle : 10 ^ 7 ≤ leading 8 rid.natAbs := le_leading (by omega) 7
    omega
  · have hle : 10 ^ 8 ≤ leading 9 rid.natAbs := le_leading (by omega) 8
    omega

private theorem registered_zero : registered 0 = 0 := by
  simp [registered, leading]

private theorem registered_eq_zero_iff {rid : Int} : registered rid = 0 ↔ rid = 0 := by
  constructor
  · intro h
    by_contra hne
    have hle := le_registered hne
    rw [h] at hle
    omega
  · rintro rfl
    exact registered_zero

private theorem idOk_idString {rid : Int} (h : rid ≠ 0) (beyond : List CChar) : IdOk (idString rid beyond) := by
  have hle := le_registered h
  refine ⟨length_idString rid beyond, ?_, ?_⟩
  · rw [atoi_idString]
    omega
  · rw [atoi_idString]
    omega

/-! ### The header -/

private theorem connectedId_connect {id tail : List CChar} (hid : id.length = idSz - 1) (ht : NulTail tail) :
    connectedId (Msg.connect id tail).datagram = some (atoi id) := by
  simp only [connectedId, strcmp_hello_connect hid ht, strncmp_connect hid ht, if_false, if_true,
    atoi_connect hid ht]

private theorem messageOf_data {id payload tail : List CChar} (hm : (Msg.data id payload tail).WellFormed) :
    messageOf (Msg.data id payload tail).datagram = some (atoi id, padded bufSz payload) := by
  simp only [messageOf, strcmp_hello_data hm, strncmp_connect_data hm, if_false, decypher_data hm, Option.map_some]

/-- The header of a client's datagrams: for every nonzero value and every payload that fits, and whatever the datagrams
have after their texts, the server registers the number that it finds again in front of the payload. -/
theorem genId_header (rid : Int) (h0 : rid ≠ 0) (beyond payload tail tail' : List CChar) (hnul : 0 ∉ payload)
    (hlen : payload.length ≤ 246) (ht : NulTail tail) (ht' : NulTail tail') :
    (idString rid beyond).length = 9 ∧ ∃ n, n ≠ 0 ∧ n ≠ -1 ∧
      connectedId (Msg.connect (idString rid beyond) tail).datagram = some n ∧
      messageOf (Msg.data (idString rid beyond) payload tail').datagram = some (n, padded bufSz payload) ∧
      (∀ (calls : Calls) (s : Master),
        s.step (calls, (Msg.connect (idString rid beyond) tail).datagram) = some (openSession calls n s).1) ∧
      ∀ (calls : Calls) (s : Master), s.step (calls, (Msg.data (idString rid beyond) payload tail').datagram) =
        some (deliver calls n (padded bufSz payload) s).1 := by
  have hid := idOk_idString h0 beyond
  have hm : (Msg.data (idString rid beyond) payload tail').WellFormed :=
    ⟨hid, hnul, by unfold bufSz; omega, ht'⟩
  refine ⟨hid.1, atoi (idString rid beyond), hid.2.1, hid.2.2, connectedId_connect hid.1 ht, messageOf_data hm, ?_, ?_⟩
  · intro calls s
    exact step_connect calls s hid.1 ht
  · intro calls s
    exact step_data calls s hm

/-- The value -5 and a payload that begins with digits. -/
theorem genId_header_digits :
    (idString (-5) []).length = 9 ∧ ∃ n, n ≠ 0 ∧ n ≠ -1 ∧
      connectedId (Msg.connect (idString (-5) []) []).datagram = some n ∧
      messageOf (Msg.data (idString (-5) []) [chr '7', chr '7'] [0]).datagram =
        some (n, padded bufSz [chr '7', chr '7']) ∧
      (∀ (calls : Calls) (s : Master),
        s.step (calls, (Msg.connect (idString (-5) []) []).datagram) = some (openSession calls n s).1) ∧
      ∀ (calls : Calls) (s : Master), s.step (calls, (Msg.data (idString (-5) []) [chr '7', chr '7'] [0]).datagram) =
        some (deliver calls n (padded bufSz [chr '7', chr '7']) s).1 :=
  genId_header (-5) (by decide) [] [chr '7', chr '7'] [] [0] (by decide) (by decide) (by decide) (by decide)

/-! ### Two clients -/

private theorem registered_of_neg {rid : Int} (h : rid < 0) : registered rid = -(leading 8 rid.natAbs : Int) := by
  rw [registered, kept, if_pos h, if_pos h]

private theorem registered_of_nonneg {rid : Int} (h : ¬ rid < 0) : registered rid = leading 9 rid.natAbs := by
  rw [registered, kept, if_neg h, if_neg h]

private theorem registered_eq_iff {rid rid' : Int} (h : rid ≠ 0) (h' : rid' ≠ 0) :
    registered rid = registered rid' ↔
      (rid < 0 ↔ rid' < 0) ∧ leading (kept rid) rid.natAbs = leading (kept rid) rid'.natAbs := by
  have hle := le_registered h
  have hle' := le_registered h'
  by_cases hs : rid < 0
  · rw [registered_of_neg hs] at hle ⊢
    rw [kept, if_pos hs]
    by_cases hs' : rid' < 0
    · rw [registered_of_neg hs']
      omega
    · rw [registered_of_nonneg hs'] at hle' ⊢
      omega
  · rw [registered_of_nonneg hs] at hle ⊢
    rw [kept, if_neg hs]
    by_cases hs' : rid' < 0
    · rw [registered_of_neg hs'] at hle' ⊢
      omega
    · rw [registered_of_nonneg hs']
      omega

/-- Whatever fails later, a connect leaves the slot and the array as `connect_id` does. -/
private theorem openSession_connectId (calls : Calls) (id : Int) (s : Master) :
    (openSession calls id s).1.num = (connectId id s.mas).1 ∧
      (openSession calls id s).1.mas = (connectId id s.mas).2 := by
  unfold openSession
  dsimp only
  split
  · exact ⟨rfl, rfl⟩
  · split
    · exact ⟨rfl, rfl⟩
    · split
      · exact ⟨rfl, rfl⟩
      · exact ⟨rfl, rfl⟩

private theorem neverShares_of_ne {id id' : List CChar} (hid : id.length = idSz - 1) (hid' : id'.length = idSz - 1)
    (h0 : atoi id ≠ 0) (hne : atoi id ≠ atoi id') : NeverShares id id' := by
  intro calls calls' tail tail' s t s' t' ht ht' hs hnum hslot hs'
  rw [step_connect calls s hid ht] at hs
  rw [step_connect calls' s' hid' ht'] at hs'
  obtain rfl := Option.some.inj hs
  obtain rfl := Option.some.inj hs'
  rw [(openSession_connectId calls (atoi id) s).1, (openSession_connectId calls (atoi id) s).2] at hslot
  rw [(openSession_connectId calls (atoi id) s).1] at hnum
  rw [(openSession_connectId calls (atoi id) s).1, (openSession_connectId calls' (atoi id') s').1]
  rcases connectId_spec (atoi id) s.mas with ⟨heq, -⟩ | ⟨k, hk, heq, -, -⟩
  · have hnum' : 0 ≤ (connectId (atoi id) s.mas).1 := hnum
    rw [heq] at hnum'
    have hneg : (0 : Int) ≤ -1 := hnum'
    omega
  · rw [heq] at hslot ⊢
    have hown : s'.mas[k]? = some (atoi id) := hslot.trans (List.getElem?_set_self hk)
    rcases connectId_spec (atoi id') s'.mas with ⟨heq', -⟩ | ⟨j, -, heq', hj, -⟩
    · rw [heq']
      show (-1 : Int) ≠ k
      omega
    · rw [heq']
      intro hjk
      obtain rfl : j = k := Int.ofNat_inj.1 hjk
      rw [hown] at hj
      rcases hj with hj | hj
      · exact h0 (Option.some.inj hj)
      · exact hne (Option.some.inj hj)

/-- The number 0 leaves the slot free. -/
theorem not_neverShares_of_zero {id id' : List CChar} (hid : id.length = idSz - 1) (hid' : id'.length = idSz - 1)
    (h0 : atoi id = 0) : ¬ NeverShares id id' := by
  intro h
  have hfirst : ∀ n, connectId n Master.start.mas = (0, n :: List.replicate 9999 0) := fun n => rfl
  have hmas : (openSession .ok 0 .start).1.mas = Master.start.mas := by
    rw [(openSession_connectId .ok 0 .start).2, hfirst]
    rfl
  have hnum : (openSession .ok 0 .start).1.num = 0 := by
    rw [(openSession_connectId .ok 0 .start).1, hfirst]
  have hnil : NulTail [] := by decide
  have hstep := step_connect .ok .start hid hnil
  rw [h0] at hstep
  refine h .ok .ok [] [] .start _ _ _ hnil hnil hstep (by rw [hnum]) rfl (step_connect .ok _ hid' hnil) ?_
  rw [(openSession_connectId .ok (atoi id') _).1, hmas, hfirst, hnum]

/-- For all values of two clients: the server registers different numbers for them, and never gives the slot that one of
them has to the other, if and only if neither value is 0 and they have different signs or differ in the digits that the
id keeps. -/
theorem ids_differ_iff (rid rid' : Int) (beyond beyond' : List CChar) :
    (atoi (idString rid beyond) ≠ atoi (idString rid' beyond') ∧
      NeverShares (idString rid beyond) (idString rid' beyond') ∧
      NeverShares (idString rid' beyond') (idString rid beyond)) ↔
    rid ≠ 0 ∧ rid' ≠ 0 ∧
      ((rid < 0 ↔ rid' < 0) → leading (kept rid) rid.natAbs ≠ leading (kept rid) rid'.natAbs) := by
  have hlen := length_idString rid beyond
  have hlen' := length_idString rid' beyond'
  have hzero : rid = 0 → ¬ NeverShares (idString rid beyond) (idString rid' beyond') := fun h =>
    not_neverShares_of_zero hlen hlen' (by rw [atoi_idString, registered_eq_zero_iff, h])
  have hzero' : rid' = 0 → ¬ NeverShares (idString rid' beyond') (idString rid beyond) := fun h =>
    not_neverShares_of_zero hlen' hlen (by rw [atoi_idString, registered_eq_zero_iff, h])
  constructor
  · rintro ⟨hne, hshare, hshare'⟩
    have h0 : rid ≠ 0 := fun h => hzero h hshare
    have h0' : rid' ≠ 0 := fun h => hzero' h hshare'
    refine ⟨h0, h0', fun hsign hleading => ?_⟩
    rw [atoi_idString, atoi_idString] at hne
    exact hne ((registered_eq_iff h0 h0').2 ⟨hsign, hleading⟩)
  · rintro ⟨h0, h0', hdiffer⟩
    have hne : atoi (idString rid beyond) ≠ atoi (idString rid' beyond') := by
      rw [atoi_idString, atoi_idString]
      intro heq
      obtain ⟨hsign, hleading⟩ := (registered_eq_iff h0 h0').1 heq
      exact hdiffer hsign hleading
    refine ⟨hne, neverShares_of_ne hlen hlen' (idOk_idString h0 beyond).2.1 hne,
      neverShares_of_ne hlen' hlen (idOk_idString h0' beyond').2.1 hne.symm⟩

/-- Two values of `getpid() * rand()`, of the pids 12 and 120 with the first `rand()`, that give the same nine
characters. -/
theorem ids_collide : ∃ rid rid' : Int, -2 ^ 31 ≤ rid ∧ rid < 2 ^ 31 ∧ -2 ^ 31 ≤ rid' ∧ rid' < 2 ^ 31 ∧ rid ≠ rid' ∧
    atoi (idString rid []) = atoi (idString rid' []) :=
  ⟨176636116, 1766361160, by decide, by decide, by decide, by decide, by decide, by decide +kernel⟩

end UnixTasks.Udp
