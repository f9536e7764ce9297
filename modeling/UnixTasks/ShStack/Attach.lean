import UnixTasks.ShStack.Contents
import UnixTasks.ShStack.Sequential

/-!
# What an attach does to a stack that is in use

`attach_stack` takes the branch for a new stack whenever its first `shmget` does not return a positive identifier, and
both branches set semaphores before anything is checked.

* (`finish_attach_create`) an attach that does not find the segment resets all three semaphores and returns `NULL`;
* (`AttachKeeps`) when this, or the single `SETVAL` of the other branch, changes nothing;
* (`attach_keeps_iff`) exactly then an attach leaves the stack as it was;
* (`attach_not_transparent`) a mutex that is taken away from its holder, and a count that is lost.
-/

namespace UnixTasks.ShStack

open ActionSystem

variable {P V : Type}

/-- The slots of the segment. -/
def Kernel.slots (k : Kernel V) : Option (Nat → V) := k.shm.map fun seg => seg.slot

/-- The capacity, the count, the mutex and the slots are the same in both kernels. -/
def SameStack (k k' : Kernel V) : Prop :=
  k'.semVal 0 = k.semVal 0 ∧ k'.semVal 1 = k.semVal 1 ∧ k'.semVal 2 = k.semVal 2 ∧ k'.slots = k.slots

/-- The first `shmget` of `attach_stack` finds the segment. -/
def Base.Finds (b : Base) (size : Int) : Prop := 0 < b.shmId ∧ 0 ≤ size ∧ size ≤ b.segSize

instance (b : Base) (size : Int) : Decidable (b.Finds size) := inferInstanceAs (Decidable (_ ∧ _ ∧ _))

/-- The mutex is free, and the attach finds the segment or happens to reset the semaphores to the values they have. -/
def AttachKeeps (b : Base) (val : Nat → Int) (size : Int) : Prop :=
  val 2 = 1 ∧ (b.Finds size ∨ (val 1 = 0 ∧ (val 0 = size ∨ ¬ (0 ≤ size ∧ size ≤ semvmx))))

/-- The semaphores after `SETVAL` of semaphore `n`, which refuses a value out of range. -/
def setTo (val : Nat → Int) (n : Nat) (v : Int) : Nat → Int :=
  if 0 ≤ v ∧ v ≤ semvmx then Function.update val n v else val

private theorem Base.setval_kernel_eq (b : Base) (val : Nat → Int) (slot : Nat → V) {n : Nat} (hn : n < 3) (v : Int) :
    (b.kernel val slot).setval b.semId n v = b.kernel (setTo val n v) slot := by
  unfold setTo
  split
  · rename_i hv
    exact b.setval_kernel val slot hn hv.1 hv.2
  · rename_i hv
    simp [Base.kernel, Kernel.setval, Kernel.semSet, Option.filter, hn, hv]

section Calls

variable [Zero V] {b : Base} {val : Nat → Int} {slot : Nat → V} {size : Int} {fuel : Nat}

/-- `shmget` of an existing segment: it fails on a size that is too large. -/
private theorem Base.shmget_kernel (b : Base) (val : Nat → Int) (slot : Nat → V) (size : Int) {flg : IpcFlg}
    (hflg : (flg.creat && flg.excl) = false) :
    (b.kernel val slot).shmget size flg =
      (b.kernel val slot, if 0 ≤ size ∧ size ≤ b.segSize then b.shmId else -1) := by
  by_cases hfit : 0 ≤ size ∧ size ≤ b.segSize
  · have hnot : ¬ (size < 0 ∨ b.segSize < size) := by omega
    simp [Base.kernel, Kernel.shmget, hflg, hnot, hfit]
  · have hno : size < 0 ∨ b.segSize < size := by omega
    simp [Base.kernel, Kernel.shmget, hflg, hno, hfit]

/-- An attach that does not find the segment: it goes through the branch for a new stack, and fails at the end. -/
theorem finish_attach_create {q : Option StackT} (hnot : ¬ b.Finds size) :
    Proc.finish (fuel + 7) (b.kernel val slot) ⟨q, Op.start (.attach size)⟩ =
      some (b.kernel (setTo (setTo (setTo val 0 size) 1 0) 2 1) slot, ⟨none, .idle⟩, .attach false) := by
  let key : Int := if 0 ≤ size ∧ size ≤ b.segSize then b.shmId else -1
  have hkey : key ≤ 0 := by
    simp only [key]
    split
    · rename_i hfit
      have hpos : ¬ 0 < b.shmId := fun hpos => hnot ⟨hpos, hfit⟩
      omega
    · omega
  have hprobe : (b.kernel val slot).shmget size ipcExcl = (b.kernel val slot, key) := b.shmget_kernel val slot size rfl
  have hcreate : (b.kernel val slot).shmget size ipcCreat = (b.kernel val slot, key) :=
    b.shmget_kernel val slot size rfl
  have hsem : (b.kernel val slot).semget 3 ipcCreat = (b.kernel val slot, b.semId) := by
    simp [Base.kernel, Kernel.semget, ipcCreat]
  have hset0 := b.setval_kernel_eq val slot (n := 0) (by omega) size
  have hset1 := b.setval_kernel_eq (setTo val 0 size) slot (n := 1) (by omega) 0
  have hset2 := b.setval_kernel_eq (setTo (setTo val 0 size) 1 0) slot (n := 2) (by omega) 1
  simp [Op.start, Proc.finish, Proc.step, attachStep, hprobe, hcreate, Int.not_lt.2 hkey, hkey, hsem, hset0, hset1,
    hset2]

private theorem callAlone_of_finish [DecidableEq P] {s : State P V} {p : P} {op : Op V} {k : Kernel V} {q : Proc V}
    {r : Ret V} (hidle : (s.proc p).pc = .idle)
    (hfin : Proc.finish fuel s.kernel ⟨(s.proc p).stack, op.start⟩ = some (k, q, r)) :
    s.callAlone fuel (p, op) = some ⟨k, Function.update s.proc p q, s.log ++ [(p, r)]⟩ := by
  simp [State.callAlone, hidle, hfin]

/-- Writing a value changes nothing if and only if it is there already or is refused. -/
private theorem setTo_self_iff (val : Nat → Int) (n : Nat) (v : Int) :
    setTo val n v n = val n ↔ val n = v ∨ ¬ (0 ≤ v ∧ v ≤ semvmx) := by
  unfold setTo
  split
  · rename_i hv
    rw [Function.update_self]
    exact ⟨fun h => .inl h.symm, fun h => (h.resolve_right (not_not.2 hv)).symm⟩
  · rename_i hv
    exact iff_of_true rfl (.inr hv)

private theorem setTo_of_ne (val : Nat → Int) {n m : Nat} (hne : m ≠ n) (v : Int) : setTo val n v m = val m := by
  unfold setTo
  split
  · rw [Function.update_of_ne hne]
  · rfl

private theorem setTo_of_le (val : Nat → Int) (n : Nat) {v : Int} (h0 : 0 ≤ v) (hmax : v ≤ semvmx) :
    setTo val n v n = v := by
  rw [setTo, if_pos ⟨h0, hmax⟩, Function.update_self]

/-- For every state of an existing stack, whatever the other processes are doing, and every requested size: an attach
that runs to its end leaves the capacity, the count, the mutex and the slots as they were if and only if the mutex is
free and the attach finds the segment, or the reset of the other branch writes the values that are there. -/
theorem attach_keeps_iff [DecidableEq P] {s : State P V} {p : P} (size : Int) (hk : s.kernel = b.kernel val slot)
    (hidle : (s.proc p).pc = .idle) :
    ∃ t, s.callAlone (fuel + 8) (p, .attach size) = some t ∧
      (SameStack s.kernel t.kernel ↔ AttachKeeps b val size) := by
  by_cases hfind : b.Finds size
  · obtain ⟨hpos, h0, hle⟩ := hfind
    have hfin : Proc.finish (fuel + 2 + 6) (b.kernel val slot) ⟨(s.proc p).stack, Op.start (.attach size)⟩ = _ :=
      finish_attach_old hpos h0 hle
    rw [← hk] at hfin
    refine ⟨_, callAlone_of_finish hidle hfin, ?_⟩
    rw [hk]
    constructor
    · rintro ⟨-, -, hmutex, -⟩
      exact ⟨hmutex.symm, .inl ⟨hpos, h0, hle⟩⟩
    · rintro ⟨hmutex, -⟩
      exact ⟨rfl, rfl, hmutex.symm, rfl⟩
  · have hfin : Proc.finish (fuel + 1 + 7) (b.kernel val slot) ⟨(s.proc p).stack, Op.start (.attach size)⟩ = _ :=
      finish_attach_create hfind
    rw [← hk] at hfin
    refine ⟨_, callAlone_of_finish hidle hfin, ?_⟩
    rw [hk]
    let val' := setTo (setTo (setTo val 0 size) 1 0) 2 1
    have hcap : val' 0 = setTo val 0 size 0 := by
      simp only [val']
      rw [setTo_of_ne _ (by omega), setTo_of_ne _ (by omega)]
    have hcount : val' 1 = 0 := by
      simp only [val']
      rw [setTo_of_ne _ (by omega), setTo_of_le _ 1 (by omega) (by decide)]
    have hmutex : val' 2 = 1 := setTo_of_le _ 2 (by omega) (by decide)
    constructor
    · rintro ⟨h0, h1, h2, -⟩
      have h0' : setTo val 0 size 0 = val 0 := hcap.symm.trans h0
      exact ⟨h2.symm.trans hmutex, .inr ⟨h1.symm.trans hcount, (setTo_self_iff val 0 size).1 h0'⟩⟩
    · rintro ⟨h2, h⟩
      obtain ⟨h1, h0⟩ := h.resolve_left hfind
      exact ⟨hcap.trans ((setTo_self_iff val 0 size).2 h0), hcount.trans h1.symm, hmutex.trans h2.symm, rfl⟩

end Calls

/-- A second process attaches to a stack at rest. -/
theorem attach_keeps_iff_at_rest : ∃ t, (emptyStack Bool 2).callAlone 8 (false, .attach 2) = some t ∧
    (SameStack (emptyStack Bool 2).kernel t.kernel ↔
      AttachKeeps ⟨1, 2, 2, 3, 4⟩ (fun n => if n = 0 then 2 else if n = 2 then 1 else 0) 2) :=
  @attach_keeps_iff Bool Nat _ ⟨1, 2, 2, 3, 4⟩ _ (fun _ => 0) 0 _ _ _ 2 rfl rfl

/-- A process is inside `push` with the mutex, and another one attaches: the mutex is free again.  After the push, an
attach with a size that is too large returns `NULL`, and the count is 0 again. -/
theorem attach_not_transparent :
    (∃ s t, run State.step (emptyStack Bool 2) (.call true (.push 7) :: List.replicate 3 (.step true)) = some s ∧
      s.callAlone 8 (false, .attach 2) = some t ∧ ¬ SameStack s.kernel t.kernel) ∧
    ∃ s t, run State.step (emptyStack Bool 2) (.call true (.push 7) :: List.replicate 6 (.step true)) = some s ∧
      s.callAlone 8 (false, .attach 4097) = some t ∧ (false, .attach false) ∈ t.log ∧
      ¬ SameStack s.kernel t.kernel := by
  refine ⟨⟨_, _, rfl, rfl, ?_⟩, ⟨_, _, rfl, rfl, by decide, ?_⟩⟩
  · rintro ⟨-, -, hmutex, -⟩
    exact absurd hmutex (by decide)
  · rintro ⟨-, hcount, -, -⟩
    exact absurd hcount (by decide)

end UnixTasks.ShStack
