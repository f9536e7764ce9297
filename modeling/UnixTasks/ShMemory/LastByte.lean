import UnixTasks.ShMemory.Rounds

/-!
# The last byte of sh_memory

The sender does not wait for the receiver after the last byte: it clears the receiver's flag and posts the end.  If
the receiver has not tested the flag for that byte yet, it leaves its loop without writing the byte.

* (`copy_incomplete`) a run of a one-byte file that ends with an empty copy;
* (`copies_iff_killAfterTest`) a finished run copies the file exactly when, at the `kill` step, the receiver has
  taken the last post of `sem2` and is past the following test of `flag`.
-/

namespace UnixTasks.ShMemory

open ActionSystem

/-- After a `kill` in time, the last byte is written or about to be. -/
def LastKept (file : List Byte) (s : State) : Prop :=
  s.flag = false → s.written.length = file.length ∨
    (s.written.length + 1 = file.length ∧ (s.handPc = .print ∨ s.handPc = .write))

/-- After a `kill` that came too early, a byte is missing and the receiver writes no more. -/
def LastLost (file : List Byte) (s : State) : Prop :=
  s.flag = false ∧ s.written.length < file.length ∧ s.handPc ≠ .print ∧ s.handPc ≠ .write

/-- At the `kill` step the receiver lacks at most one byte, and `sem2` and its statement tell whether the test of
`flag` still comes before the write of that byte. -/
private theorem at_kill {file : List Byte} {handPid : Int} {s : State} (h : RoundInv file handPid s)
    (hpc : s.mainPc = .kill) :
    (s.sem2 = 0 ∧ s.handPc ≠ .testFlag →
      s.written.length = file.length ∨
        (s.written.length + 1 = file.length ∧ (s.handPc = .print ∨ s.handPc = .write))) ∧
    (¬(s.sem2 = 0 ∧ s.handPc ≠ .testFlag) →
      s.written.length < file.length ∧ s.handPc ≠ .print ∧ s.handPc ≠ .write) := by
  have h1 := h.sem1
  have h2 := h.sem2
  have hm := h.mainAt
  have hh := h.handAt
  have hl := h.length_le
  have hf : s.flag ≠ false := by simp [h.flag, hpc]
  simp only [hpc, MainAt, claimed, offered, sent] at h1 h2 hm hh
  cases hph : s.handPc <;> simp only [hph, givenBack, taken, HandAt] at h1 h2 hh
  case postEnd | done => exact absurd hh.1 hf
  all_goals
    simp
    omega

/-- Only `kill` changes what the receiver sees of the sender's end. -/
private theorem main_frame {file : List Byte} {handPid : Int} {s t : State}
    (hs : mainStep file handPid s = some t) :
    t.written = s.written ∧ t.handPc = s.handPc ∧ (s.flag = false ∨ s.mainPc ≠ .kill → t.flag = s.flag) := by
  unfold mainStep at hs
  cases hpc : s.mainPc <;> simp only [hpc] at hs <;> (try split at hs) <;> cases hs <;> simp_all

/-- The receiver writes at `write` only, comes there through `print`, and prints only with the flag set. -/
private theorem hand_frame {handPid : Int} {s t : State} (hs : handStep handPid s = some t) :
    t.flag = s.flag ∧ ((s.handPc = .write ∧ t.written.length = s.written.length + 1) ∨
      (s.handPc ≠ .write ∧ t.written = s.written ∧ (t.handPc = .print → s.flag = true) ∧
        (t.handPc = .write ↔ s.handPc = .print))) := by
  unfold handStep at hs
  cases hpc : s.handPc <;> simp only [hpc] at hs <;> (try split at hs) <;> cases hs <;> simp_all

private theorem lastKept_step {file : List Byte} {handPid : Int} (s : State) (a : Party) (t : State)
    (h : RoundInv file handPid s ∧ LastKept file s) (hgood : KillAfterTest s a)
    (hs : step file handPid s a = some t) : RoundInv file handPid t ∧ LastKept file t := by
  refine ⟨step_keeps s a t h.1 hs, fun hflag => ?_⟩
  cases a with
  | main =>
    obtain ⟨hw, hpc, hf⟩ := main_frame hs
    rw [hw, hpc]
    by_cases hkill : s.mainPc = .kill
    · exact (at_kill h.1 hkill).1 (hgood rfl hkill)
    · exact h.2 (by rw [← hf (Or.inr hkill), hflag])
  | hand =>
    obtain ⟨hf, hwrite | ⟨hpc, hw, -, hprint⟩⟩ := hand_frame hs
    · have hle := (step_keeps s .hand t h.1 hs).length_le
      rcases h.2 (by rw [← hf, hflag]) with hkept | ⟨hkept, -⟩ <;> omega
    · rcases h.2 (by rw [← hf, hflag]) with hkept | ⟨hkept, hpc' | hpc'⟩
      · exact Or.inl (by rw [hw, hkept])
      · exact Or.inr ⟨by rw [hw, hkept], Or.inr (hprint.2 hpc')⟩
      · exact absurd hpc' hpc

private theorem lastLost_step {file : List Byte} {handPid : Int} (s : State) (a : Party) (t : State)
    (h : LastLost file s) (hs : step file handPid s a = some t) : LastLost file t := by
  obtain ⟨hflag, hlen, hprint, hwrite⟩ := h
  cases a with
  | main =>
    obtain ⟨hw, hpc, hf⟩ := main_frame hs
    exact ⟨by rw [hf (Or.inl hflag), hflag], by rwa [hw], by rwa [hpc], by rwa [hpc]⟩
  | hand =>
    obtain ⟨hf, ⟨hpc, -⟩ | ⟨-, hw, hp, hwr⟩⟩ := hand_frame hs
    · exact absurd hpc hwrite
    · refine ⟨by rw [hf, hflag], by rwa [hw], fun hpc => ?_, fun hpc => hprint (hwr.1 hpc)⟩
      rw [hp hpc] at hflag
      cases hflag

/-- A `kill` before the receiver's last test loses the last byte. -/
private theorem lastLost_of_bad_kill {file : List Byte} {handPid : Int} {s t : State} {a : Party}
    (h : RoundInv file handPid s) (hbad : ¬ KillAfterTest s a) (hs : step file handPid s a = some t) :
    LastLost file t := by
  unfold KillAfterTest at hbad
  push Not at hbad
  obtain ⟨rfl, hkill, hbad⟩ := hbad
  obtain ⟨hw, hpc, -⟩ := main_frame hs
  have hflag : t.flag = false := by
    have hpid := h.pid (by simp [hkill]) (by simp [hkill])
    simp only [step, mainStep, hkill, Option.some.injEq] at hs
    subst hs
    simp [hpid]
  obtain ⟨hlen, hnp, hnw⟩ := (at_kill h hkill).2 (fun hg => hg.2 (hbad hg.1))
  exact ⟨hflag, by rwa [hw], by rwa [hpc], by rwa [hpc]⟩

/-- A finished run has copied the file exactly when its `kill` came after the receiver's last test of `flag`. -/
theorem copies_iff_killAfterTest {file : List Byte} {handPid shPid pid : Int} {shStr buf : Byte} {as : List Party}
    {s : State} (hrun : run (step file handPid) (init shPid shStr pid buf) as = some s) (hfin : Finished s) :
    s.written = file ↔ AllSteps (step file handPid) KillAfterTest (init shPid shStr pid buf) as := by
  have hinit := roundInv_init file handPid shPid shStr pid buf
  constructor
  · intro hw
    by_contra hall
    obtain ⟨pre, a, post, u, v, -, hpre, -, hbad, hstep, hpost⟩ := exists_first_bad hrun hall
    have hu : RoundInv file handPid u := run_invariant step_keeps hinit hpre
    have hlost := run_invariant lastLost_step (lastLost_of_bad_kill hu hbad hstep) hpost
    exact absurd (congrArg List.length hw) (Nat.ne_of_lt hlost.2.1)
  · intro hall
    have hkept : RoundInv file handPid s ∧ LastKept file s :=
      run_invariant_of_good lastKept_step ⟨hinit, by simp [LastKept, init]⟩ hall hrun
    have hflag : s.flag = false := hkept.1.flag.2 (Or.inr (Or.inr hfin.1))
    rw [hkept.1.written]
    rcases hkept.2 hflag with hlen | ⟨-, hpc | hpc⟩
    · rw [hlen, List.take_length]
    · rw [hfin.2] at hpc
      cases hpc
    · rw [hfin.2] at hpc
      cases hpc

/-- A one-byte file: the receiver wakes after the byte was posted but tests `flag` only after `kill`. -/
theorem copy_incomplete : ∃ as s, run (step [97#8] 7) (init 0 0#8 0 0#8) as = some s ∧ Finished s ∧
    s.written = [] ∧ s.written ≠ [97#8] :=
  ⟨[.hand, .hand, .main, .main, .main, .main, .main, .main, .main, .main, .main, .hand, .hand, .hand, .main, .main],
    ⟨0, 1, 7, 97#8, .done, 7, 97#8, 1, 1, .done, false, [], []⟩, rfl, by decide, rfl, by decide⟩

/-- The same file when `kill` comes while the receiver prints the byte. -/
theorem copies_iff_killAfterTest_one_byte : [97#8] = [97#8] ↔
    AllSteps (step [97#8] 7) KillAfterTest (init 0 0#8 0 0#8)
      [.hand, .hand, .main, .main, .main, .main, .main, .hand, .hand, .main, .main, .main, .main, .main, .hand, .hand,
        .hand, .hand, .hand, .hand, .main] := by
  have hrun : run (step [97#8] 7) (init 0 0#8 0 0#8)
      [.hand, .hand, .main, .main, .main, .main, .main, .hand, .hand, .main, .main, .main, .main, .main, .hand, .hand,
        .hand, .hand, .hand, .hand, .main] =
      some ⟨1, 0, 7, 97#8, .done, 7, 97#8, 1, 1, .done, false, [97#8], [97#8]⟩ := rfl
  exact copies_iff_killAfterTest hrun (by decide)

end UnixTasks.ShMemory
