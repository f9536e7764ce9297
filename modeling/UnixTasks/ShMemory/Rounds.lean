import UnixTasks.ShMemory.Machine

/-!
# The rounds of sh_memory

Both semaphores only count: the posts and the waits that each process has behind it are functions of its statement
and its loop index, and the value of a semaphore is the difference of the two sides.  As `sem1` is never negative the
sender is at most one byte ahead of the receiver, so the cell holds the byte that the receiver has not read yet.

* (`RoundInv`) the invariant of all interleavings, kept by `main_keeps` and `hand_keeps`;
* (`written_prefix_and_not_stuck`) what is written is a prefix of the file and nobody is left waiting.
-/

namespace UnixTasks.ShMemory

open ActionSystem

/-! ### Counting posts and waits -/

/-- Posts of `sem2` that a sender with index `i` has behind it. -/
def offered (i : Nat) : MainPc → Nat
  | .test | .semWait | .incr | .semWaitEnd | .done => i + 1
  | _ => i

/-- Bytes that it has put into the cell and posted. -/
def sent (i : Nat) : MainPc → Nat
  | .test | .semWait | .incr => i + 1
  | _ => i

/-- Its waits on `sem1`, for a file of `n` bytes: one for the pid and one for each byte but the last. -/
def claimed (n i : Nat) : MainPc → Nat
  | .semWaitPid => 0
  | .incr => 1 + min (i + 1) (n - 1)
  | .done => 2 + min i (n - 1)
  | _ => 1 + min i (n - 1)

/-- Waits on `sem2` that a receiver with `w` bytes written has behind it. -/
def taken (w : Nat) : HandPc → Nat
  | .storePid | .postPid | .semWaitFirst => 0
  | .post | .semWait => w
  | _ => w + 1

/-- Its posts of `sem1`. -/
def givenBack (w : Nat) : HandPc → Nat
  | .storePid | .postPid => 0
  | .post => w
  | .done => w + 2
  | _ => w + 1

/-- Bytes it has printed: one more than it has written between the two calls. -/
def printedCount (w : Nat) : HandPc → Nat
  | .write => w + 1
  | _ => w

/-- Where the sender is in the file. -/
def MainAt (file : List Byte) (i offset : Nat) (buf shStr : Byte) : MainPc → Prop
  | .semWaitPid | .readPid => i = 0 ∧ offset = 0
  | .read => offset = i ∧ i ≤ file.length
  | .store => offset = i + 1 ∧ file[i]? = some buf
  | .post => offset = i + 1 ∧ file[i]? = some shStr
  | .test | .incr => offset = i + 1 ∧ i < file.length
  | .semWait => offset = i + 1 ∧ i + 1 < file.length
  | .kill | .postEnd | .semWaitEnd | .done => i = file.length

/-- What holds at each statement of the receiver, `k` being the bytes sent so far. -/
def HandAt (n k w : Nat) (flag : Bool) : HandPc → Prop
  | .storePid | .postPid | .semWaitFirst => w = 0
  | .print | .write => w < k
  | .post => 0 < w
  | .postEnd | .done => flag = false ∧ n ≤ w + 1
  | .testFlag | .semWait => True

structure RoundInv (file : List Byte) (handPid : Int) (s : State) : Prop where
  sem2 : s.sem2 + taken s.written.length s.handPc = offered s.i s.mainPc
  sem1 : s.sem1 + claimed file.length s.i s.mainPc = givenBack s.written.length s.handPc
  mainAt : MainAt file s.i s.offset s.buf s.shStr s.mainPc
  handAt : HandAt file.length (sent s.i s.mainPc) s.written.length s.flag s.handPc
  flag : s.flag = false ↔ s.mainPc = .postEnd ∨ s.mainPc = .semWaitEnd ∨ s.mainPc = .done
  shPid : s.handPc ≠ .storePid → s.shPid = handPid
  pid : s.mainPc ≠ .semWaitPid → s.mainPc ≠ .readPid → s.pid = handPid
  cell : s.written.length < sent s.i s.mainPc → file[s.written.length]? = some s.shStr
  written : s.written = file.take s.written.length
  length_le : s.written.length ≤ file.length
  printed : s.printed = file.take (printedCount s.written.length s.handPc)

theorem roundInv_init (file : List Byte) (handPid shPid : Int) (shStr : Byte) (pid : Int) (buf : Byte) :
    RoundInv file handPid (init shPid shStr pid buf) := by
  constructor <;> simp [init, taken, offered, claimed, givenBack, MainAt, HandAt, sent, printedCount]

/-! ### One statement keeps the invariant -/

/-- The receiver's facts survive a further byte sent and the flag being cleared. -/
private theorem HandAt.mono {n k k' w : Nat} {flag flag' : Bool} {pc : HandPc} (hk : k ≤ k')
    (hflag : flag = false → flag' = false) (h : HandAt n k w flag pc) : HandAt n k' w flag' pc := by
  cases pc with
  | print | write => exact Nat.lt_of_lt_of_le h hk
  | postEnd | done => exact ⟨hflag h.1, h.2⟩
  | _ => exact h

/-- A sender that is about to fill the cell or to post it is not ahead of the receiver. -/
private theorem index_le_written {n k sem1 i w : Nat} {flag : Bool} {pc : HandPc} (hi : i < n)
    (h1 : sem1 + (1 + min i (n - 1)) = givenBack w pc) (hh : HandAt n k w flag pc) (hf : flag ≠ false) :
    i ≤ w := by
  cases pc <;> simp only [givenBack, HandAt] at h1 hh
  case postEnd | done => exact absurd hh.1 hf
  all_goals omega

theorem main_keeps {file : List Byte} {handPid : Int} {s t : State} (h : RoundInv file handPid s)
    (hs : mainStep file handPid s = some t) : RoundInv file handPid t := by
  obtain ⟨sem1, sem2, shPid, shStr, mainPc, pid, buf, i, offset, handPc, flag, printed, written⟩ := s
  have h1 : sem1 + claimed file.length i mainPc = givenBack written.length handPc := h.sem1
  have h2 : sem2 + taken written.length handPc = offered i mainPc := h.sem2
  have hm : MainAt file i offset buf shStr mainPc := h.mainAt
  have hf : flag = false ↔ mainPc = .postEnd ∨ mainPc = .semWaitEnd ∨ mainPc = .done := h.flag
  have hh : HandAt file.length (sent i mainPc) written.length flag handPc := h.handAt
  cases mainPc <;> simp only [mainStep] at hs
  case semWaitPid =>
    split at hs <;> cases hs
    obtain ⟨rfl, rfl⟩ := hm
    simp only [claimed] at h1
    exact { h with
      sem1 := by simp only [claimed]; omega
      flag := by simpa using hf
      pid := by simp }
  case readPid =>
    cases hs
    obtain ⟨rfl, rfl⟩ := hm
    -- the receiver has posted `sem1`, so it is past the statement that stores its pid
    have hpid : handPc ≠ .storePid := by
      rintro rfl
      simp [claimed, givenBack] at h1
    exact { h with
      mainAt := ⟨rfl, Nat.zero_le _⟩
      flag := by simpa using hf
      pid := fun _ _ => h.shPid hpid }
  case read =>
    obtain ⟨rfl, hi⟩ := hm
    split at hs <;> cases hs <;> rename_i hb
    · exact { h with
        mainAt := ⟨rfl, hb⟩
        flag := by simpa using hf
        pid := fun _ _ => h.pid (by simp) (by simp) }
    · exact { h with
        mainAt := Nat.le_antisymm hi (List.getElem?_eq_none_iff.1 hb)
        flag := by simpa using hf
        pid := fun _ _ => h.pid (by simp) (by simp) }
  case store =>
    cases hs
    obtain ⟨rfl, hb⟩ := hm
    have hw : i ≤ written.length := index_le_written (List.getElem?_eq_some_iff.1 hb).1 h1 hh (by simp [hf])
    exact { h with
      mainAt := ⟨rfl, hb⟩
      flag := by simpa using hf
      cell := fun hlt => absurd hlt (Nat.not_lt.2 hw)
      pid := fun _ _ => h.pid (by simp) (by simp) }
  case post =>
    cases hs
    obtain ⟨rfl, hb⟩ := hm
    have hi : i < file.length := (List.getElem?_eq_some_iff.1 hb).1
    have hw : i ≤ written.length := index_le_written hi h1 hh (by simp [hf])
    exact { h with
      sem2 := by simp only [offered] at h2 ⊢; omega
      mainAt := ⟨rfl, hi⟩
      handAt := hh.mono (Nat.le_succ i) id
      flag := by simpa using hf
      cell := fun hlt => by rwa [Nat.le_antisymm (Nat.le_of_lt_succ hlt) hw]
      pid := fun _ _ => h.pid (by simp) (by simp) }
  case test =>
    obtain ⟨rfl, hi⟩ := hm
    split at hs <;> cases hs <;> rename_i hlast
    · exact { h with
        mainAt := ⟨rfl, show i + 1 < file.length by omega⟩
        flag := by simpa using hf
        pid := fun _ _ => h.pid (by simp) (by simp) }
    · exact { h with
        sem1 := by simp only [claimed] at h1 ⊢; omega
        mainAt := ⟨rfl, hi⟩
        flag := by simpa using hf
        pid := fun _ _ => h.pid (by simp) (by simp) }
  case semWait =>
    obtain ⟨rfl, hi⟩ := hm
    split at hs <;> cases hs
    exact { h with
      sem1 := by simp only [claimed] at h1 ⊢; omega
      mainAt := ⟨rfl, show i < file.length by omega⟩
      flag := by simpa using hf
      pid := fun _ _ => h.pid (by simp) (by simp) }
  case incr =>
    cases hs
    obtain ⟨rfl, hi⟩ := hm
    exact { h with
      mainAt := ⟨rfl, hi⟩
      flag := by simpa using hf
      pid := fun _ _ => h.pid (by simp) (by simp) }
  case kill =>
    cases hs
    have hpid : pid = handPid := h.pid (by simp) (by simp)
    exact { h with
      handAt := hh.mono (Nat.le_refl i) (by simp [hpid])
      flag := by simp [hpid]
      pid := fun _ _ => hpid }
  case postEnd =>
    cases hs
    exact { h with
      sem2 := by simp only [offered] at h2 ⊢; omega
      flag := by simpa using hf
      pid := fun _ _ => h.pid (by simp) (by simp) }
  case semWaitEnd =>
    split at hs <;> cases hs
    exact { h with
      sem1 := by simp only [claimed] at h1 ⊢; omega
      flag := by simpa using hf
      pid := fun _ _ => h.pid (by simp) (by simp) }
  case done => cases hs

/-- The sender is at most one byte ahead of what it has seen given back. -/
private theorem sent_le_claimed {file : List Byte} {i offset : Nat} {buf shStr : Byte} {pc : MainPc}
    (hm : MainAt file i offset buf shStr pc) : sent i pc ≤ claimed file.length i pc := by
  cases pc <;> simp only [MainAt, sent, claimed] at hm ⊢
  case store | post => have := (List.getElem?_eq_some_iff.1 hm.2).1; omega
  all_goals omega

/-- A sender that has cleared the flag has seen all bytes but one given back. -/
private theorem length_le_claimed {file : List Byte} {i offset : Nat} {buf shStr : Byte} {pc : MainPc}
    (hm : MainAt file i offset buf shStr pc) (hpc : pc = .postEnd ∨ pc = .semWaitEnd ∨ pc = .done) :
    file.length ≤ claimed file.length i pc := by
  rcases hpc with rfl | rfl | rfl <;> simp only [MainAt, claimed] at hm ⊢ <;> omega

/-- Before the end is posted, the posts of `sem2` are the bytes sent. -/
private theorem offered_eq_sent {i : Nat} {pc : MainPc} (hpc : ¬(pc = .postEnd ∨ pc = .semWaitEnd ∨ pc = .done)) :
    offered i pc = sent i pc := by
  cases pc <;> simp [offered, sent] at hpc ⊢

private theorem take_succ_of_getElem? {file : List Byte} {w : Nat} {b : Byte} (hb : file[w]? = some b) :
    file.take (w + 1) = file.take w ++ [b] := by
  rw [List.take_add_one, hb, Option.toList_some]

theorem hand_keeps {file : List Byte} {handPid : Int} {s t : State} (h : RoundInv file handPid s)
    (hs : handStep handPid s = some t) : RoundInv file handPid t := by
  obtain ⟨sem1, sem2, shPid, shStr, mainPc, pid, buf, i, offset, handPc, flag, printed, written⟩ := s
  have h1 : sem1 + claimed file.length i mainPc = givenBack written.length handPc := h.sem1
  have h2 : sem2 + taken written.length handPc = offered i mainPc := h.sem2
  have hm : MainAt file i offset buf shStr mainPc := h.mainAt
  have hf : flag = false ↔ mainPc = .postEnd ∨ mainPc = .semWaitEnd ∨ mainPc = .done := h.flag
  have hh : HandAt file.length (sent i mainPc) written.length flag handPc := h.handAt
  have hc : written.length < sent i mainPc → file[written.length]? = some shStr := h.cell
  have hw : written = file.take written.length := h.written
  have hp : printed = file.take (printedCount written.length handPc) := h.printed
  cases handPc <;> simp only [handStep] at hs <;>
    simp only [taken, givenBack, printedCount, HandAt] at h1 h2 hh hp
  case storePid =>
    cases hs
    exact { h with
      shPid := fun _ => rfl }
  case postPid =>
    cases hs
    exact { h with
      sem1 := by simp only [givenBack]; omega
      shPid := fun _ => h.shPid (by simp) }
  case semWaitFirst =>
    split at hs <;> cases hs
    exact { h with
      sem2 := by simp only [taken]; omega
      handAt := trivial
      shPid := fun _ => h.shPid (by simp) }
  case testFlag =>
    cases hs
    cases flag with
    | true =>
      have hend : ¬(mainPc = .postEnd ∨ mainPc = .semWaitEnd ∨ mainPc = .done) := by simp [← hf]
      rw [offered_eq_sent hend] at h2
      exact { h with
        handAt := show written.length < sent i mainPc by omega
        shPid := fun _ => h.shPid (by simp) }
    | false =>
      have hend := length_le_claimed hm (hf.1 rfl)
      exact { h with
        handAt := ⟨rfl, show file.length ≤ written.length + 1 by omega⟩
        shPid := fun _ => h.shPid (by simp) }
  case print =>
    cases hs
    exact { h with
      printed := by
        show printed ++ [shStr] = file.take (written.length + 1)
        rw [hp, take_succ_of_getElem? (hc hh)]
      shPid := fun _ => h.shPid (by simp) }
  case write =>
    cases hs
    have hcell := hc hh
    have hlen : (written ++ [shStr]).length = written.length + 1 := by simp
    have hsent := sent_le_claimed hm
    exact { h with
      sem2 := by simpa only [taken, hlen] using h2
      sem1 := by simpa only [givenBack, hlen] using h1
      handAt := show 0 < (written ++ [shStr]).length by omega
      cell := fun hlt => by simp only [hlen] at hlt; omega
      written := by
        show written ++ [shStr] = file.take (written ++ [shStr]).length
        rw [hlen, take_succ_of_getElem? hcell, ← hw]
      length_le := by
        have := (List.getElem?_eq_some_iff.1 hcell).1
        simp only [hlen]; omega
      printed := by simpa only [printedCount, hlen] using hp
      shPid := fun _ => h.shPid (by simp) }
  case post =>
    cases hs
    exact { h with
      sem1 := by simp only [givenBack]; omega
      handAt := trivial
      shPid := fun _ => h.shPid (by simp) }
  case semWait =>
    split at hs <;> cases hs
    exact { h with
      sem2 := by simp only [taken]; omega
      handAt := trivial
      shPid := fun _ => h.shPid (by simp) }
  case postEnd =>
    cases hs
    exact { h with
      sem1 := by simp only [givenBack]; omega
      shPid := fun _ => h.shPid (by simp) }
  case done => cases hs

theorem step_keeps {file : List Byte} {handPid : Int} (s : State) (a : Party) (t : State)
    (h : RoundInv file handPid s) (hs : step file handPid s a = some t) : RoundInv file handPid t := by
  cases a with
  | main => exact main_keeps h hs
  | hand => exact hand_keeps h hs

private theorem roundInv_of_reachable {file : List Byte} {handPid shPid pid : Int} {shStr buf : Byte} {s : State}
    (h : Reachable (step file handPid) (init shPid shStr pid buf) s) : RoundInv file handPid s :=
  h.invariant step_keeps (roundInv_init file handPid shPid shStr pid buf)

/-! ### Nobody is left waiting -/

/-- A sender that cannot move is at a wait on `sem1`, with the semaphore at 0, or at its end. -/
private theorem main_blocked {file : List Byte} {handPid : Int} {s : State} (hs : mainStep file handPid s = none) :
    s.mainPc = .done ∨ (s.sem1 = 0 ∧ (s.mainPc = .semWaitPid ∨ s.mainPc = .semWait ∨ s.mainPc = .semWaitEnd)) := by
  unfold mainStep at hs
  cases hpc : s.mainPc <;> simp only [hpc] at hs <;> (try split at hs) <;> simp_all

private theorem hand_blocked {handPid : Int} {s : State} (hs : handStep handPid s = none) :
    s.handPc = .done ∨ (s.sem2 = 0 ∧ (s.handPc = .semWaitFirst ∨ s.handPc = .semWait)) := by
  unfold handStep at hs
  cases hpc : s.handPc <;> simp only [hpc] at hs <;> (try split at hs) <;> simp_all

theorem not_stuck {file : List Byte} {handPid : Int} {s : State} (h : RoundInv file handPid s)
    (hfin : ¬ Finished s) : ∃ a t, step file handPid s a = some t := by
  cases hmain : mainStep file handPid s with
  | some t => exact ⟨.main, t, hmain⟩
  | none =>
    cases hhand : handStep handPid s with
    | some t => exact ⟨.hand, t, hhand⟩
    | none =>
      exfalso
      have h1 := h.sem1
      have h2 := h.sem2
      have hm := h.mainAt
      have hh := h.handAt
      have hf := h.flag
      have hl := h.length_le
      -- with both semaphores at 0 the two sides of the counts disagree
      rcases main_blocked hmain with hpm | ⟨hz1, hpm | hpm | hpm⟩ <;>
        rcases hand_blocked hhand with hph | ⟨hz2, hph | hph⟩ <;>
        simp only [hpm, hph, claimed, offered, taken, givenBack, MainAt, HandAt] at h1 h2 hm hh hf
      case inl.inl => exact hfin ⟨hpm, hph⟩
      all_goals omega

/-- In every reachable state the receiver has printed and written a prefix of the file, and unless both processes
have finished one of them can move. -/
theorem written_prefix_and_not_stuck {file : List Byte} {handPid shPid pid : Int} {shStr buf : Byte} {s : State}
    (h : Reachable (step file handPid) (init shPid shStr pid buf) s) :
    s.written <+: file ∧ s.printed <+: file ∧ (¬ Finished s → ∃ a t, step file handPid s a = some t) := by
  have hinv := roundInv_of_reachable h
  refine ⟨?_, ?_, not_stuck hinv⟩
  · rw [hinv.written]
    exact List.take_prefix _ _
  · rw [hinv.printed]
    exact List.take_prefix _ _

/-- The one byte of a file has been copied and the receiver sleeps in its next wait on `sem2`. -/
theorem written_prefix_and_not_stuck_one_byte :
    [97#8] <+: [97#8] ∧ [97#8] <+: [97#8] ∧
      (¬ Finished ⟨1, 0, 7, 97#8, .test, 7, 97#8, 0, 1, .semWait, true, [97#8], [97#8]⟩ →
        ∃ a t, step [97#8] 7 ⟨1, 0, 7, 97#8, .test, 7, 97#8, 0, 1, .semWait, true, [97#8], [97#8]⟩ a = some t) := by
  have hrun : run (step [97#8] 7) (init 0 0#8 0 0#8)
      [.hand, .hand, .main, .main, .main, .main, .main, .hand, .hand, .hand, .hand, .hand] =
      some ⟨1, 0, 7, 97#8, .test, 7, 97#8, 0, 1, .semWait, true, [97#8], [97#8]⟩ := rfl
  exact written_prefix_and_not_stuck ⟨_, hrun⟩

end UnixTasks.ShMemory
