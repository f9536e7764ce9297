import UnixTasks.ShStack.Contents
import UnixTasks.ShStack.Sequential

/-!
# Processes that create the stack together

Nothing exists yet; every process attaches with the same size and then pushes.  The first `shmget` of an attach decides
once and for all whether it creates the stack, and the calls that follow are those of all the processes in any order.

* (`CreatesCleanly`) the count is still 0 when a creator sets it to 0, and the set of semaphores exists when an attach
  looks for it;
* (`AttachOk`, `CreatorOk`) what is known about a process at each place of its attach and its push;
* (`Grows`) what a step may change of the semaphores;
* (`creation_run`) in every run whose steps meet the condition, no creator resets the count after a push, and everybody
  works on the one set of semaphores;
* (`creation_race`) two creators of which the second one undoes a push, and an attach that gets no semaphores.
-/

namespace UnixTasks.ShStack

open ActionSystem

variable {P V : Type}

/-- The calls of the processes: they attach with the same size, and they push. -/
def Action.creates (size : Int) : Action P V → Prop
  | .call _ (.attach sz) => sz = size
  | .call _ (.push _) | .step _ => True
  | .call _ _ => False

/-- At `semctl(stack->sem, 1, SETVAL, 0)`. -/
def Pc.atReset : Pc V → Bool
  | .attach (.newCount _) => true
  | _ => false

/-- At the `semget` of the branch for an existing stack. -/
def Pc.atFind : Pc V → Bool
  | .attach (.oldSem _) => true
  | _ => false

/-- The count is still 0 when a creator sets it to 0, and there is a set of semaphores when an attach looks for it. -/
def CreatesCleanly (s : State P V) : Action P V → Prop
  | .call _ _ => True
  | .step p => ((s.proc p).pc.atReset = true → s.kernel.semVal 1 = 0) ∧
      ((s.proc p).pc.atFind = true → s.kernel.sem.isSome = true)

instance (s : State P V) : ∀ a, Decidable (CreatesCleanly s a)
  | .call _ _ => inferInstanceAs (Decidable True)
  | .step _ => inferInstanceAs (Decidable (_ ∧ _))

/-- Some push has completed. -/
def PushDone (s : State P V) : Prop := ∃ p v, (p, Ret.push v 0) ∈ s.log

/-- The step sets the count to 0. -/
def Resets (s : State P V) (a : Action P V) : Prop := ∃ p, a = .step p ∧ (s.proc p).pc.atReset = true

/-! ### What the system calls do to the semaphores -/

/-- `sem` names the set of semaphores, which has the three that the stack needs. -/
def OnSet (k : Kernel V) (sem : Int) : Prop := ∃ set, k.sem = some set ∧ set.id = sem ∧ set.nsems = 3

/-- Whatever set there is has three semaphores, and semaphore 1 is not negative. -/
structure WellMade (k : Kernel V) : Prop where
  nsems : ∀ set, k.sem = some set → set.nsems = 3
  count : 0 ≤ k.semVal 1

/-- A step leaves the set of semaphores where it is and does not take the count back to 0. -/
structure Grows (k k' : Kernel V) : Prop where
  made : WellMade k → WellMade k'
  onSet : ∀ sem, OnSet k sem → OnSet k' sem
  count : 0 < k.semVal 1 → 0 < k'.semVal 1

private theorem Grows.of_sem_eq {k k' : Kernel V} (h : k'.sem = k.sem) : Grows k k' := by
  have hval : k'.semVal 1 = k.semVal 1 := by
    unfold Kernel.semVal
    rw [h]
  refine ⟨?_, ?_, ?_⟩
  · rintro ⟨hnsems, hcount⟩
    exact ⟨by rwa [h], by rwa [hval]⟩
  · intro sem hon
    unfold OnSet at hon ⊢
    rwa [h]
  · intro hcount
    rwa [hval]

/-- One semaphore gets another value. -/
theorem Grows.update {k k' : Kernel V} {set : SemSet} {n : Nat} {v : Int} (hk : k.sem = some set)
    (hk' : k'.sem = some { set with val := Function.update set.val n v }) (h0 : 0 ≤ v)
    (hn : n = 1 → 0 < v ∨ k.semVal 1 = 0) : Grows k k' := by
  have hval : k.semVal 1 = set.val 1 := by
    unfold Kernel.semVal
    rw [hk]
  have hval' : k'.semVal 1 = if 1 = n then v else set.val 1 := by
    unfold Kernel.semVal
    rw [hk']
    exact Function.update_apply ..
  refine ⟨?_, ?_, ?_⟩
  · rintro ⟨hnsems, hcount⟩
    refine ⟨?_, ?_⟩
    · intro set' hset'
      rw [hk', Option.some.injEq] at hset'
      subst hset'
      exact hnsems set hk
    · rw [hval']
      split <;> omega
  · rintro sem ⟨set', hset', hid, hnsems⟩
    obtain rfl : set = set' := Option.some.inj (hk.symm.trans hset')
    exact ⟨_, hk', hid, hnsems⟩
  · intro hcount
    rw [hval']
    split
    · rename_i h1
      have := hn h1.symm
      omega
    · omega

private theorem Kernel.sem_of_semSet {k : Kernel V} {id : Int} {n : Nat} {set : SemSet} (h : k.semSet id n = some set) :
    k.sem = some set := Option.eq_some_of_filter_eq_some h

theorem OnSet.semSet {k : Kernel V} {sem : Int} (h : OnSet k sem) {n : Nat} (hn : n < 3) :
    ∃ set, k.semSet sem n = some set ∧ k.semVal n = set.val n := by
  obtain ⟨set, hk, rfl, hnsems⟩ := h
  refine ⟨set, ?_, ?_⟩
  · simp [Kernel.semSet, hk, Option.filter, hnsems, hn]
  · unfold Kernel.semVal
    rw [hk]

private theorem grows_shmget [Zero V] (k : Kernel V) (size : Int) (flg : IpcFlg) : Grows k (k.shmget size flg).1 := by
  refine Grows.of_sem_eq ?_
  unfold Kernel.shmget
  repeat' split
  all_goals rfl

private theorem grows_semget (k : Kernel V) (flg : IpcFlg) : Grows k (k.semget 3 flg).1 := by
  unfold Kernel.semget
  cases hk : k.sem with
  | some set =>
    simp only
    repeat' split
    all_goals exact Grows.of_sem_eq rfl
  | none =>
    simp only
    split
    · exact Grows.of_sem_eq rfl
    · refine ⟨fun _ => ⟨?_, Int.le_refl 0⟩, ?_, ?_⟩
      · intro set hset
        obtain rfl := Option.some.inj hset
        rfl
      · rintro sem ⟨set, hset, -⟩
        rw [hk] at hset
        cases hset
      · intro hcount
        unfold Kernel.semVal at hcount
        rw [hk] at hcount
        exact absurd hcount (Int.lt_irrefl 0)

/-- `semget` without `IPC_EXCL | IPC_CREAT` names the set, if there is one or it makes one. -/
private theorem semget_onSet {k : Kernel V} (hk : WellMade k) {flg : IpcFlg} (hflg : (flg.creat && flg.excl) = false)
    (h : k.sem.isSome = true ∨ flg.creat = true) : OnSet (k.semget 3 flg).1 (k.semget 3 flg).2 := by
  unfold Kernel.semget
  cases hsem : k.sem with
  | some set =>
    have hnsems := hk.nsems set hsem
    simp only [hflg, hnsems, Nat.lt_irrefl, if_false, Bool.false_eq_true]
    exact ⟨set, hsem, rfl, hnsems⟩
  | none =>
    rw [hsem] at h
    have hcreat : flg.creat = true := h.resolve_left (by simp)
    simp only [hcreat, Bool.true_eq_false, if_false]
    exact ⟨_, rfl, rfl, rfl⟩

private theorem grows_setval (k : Kernel V) (id : Int) (n : Nat) (v : Int) (hn : n = 1 → k.semVal 1 = 0) :
    Grows k (k.setval id n v) := by
  unfold Kernel.setval
  cases hset : k.semSet id n with
  | none => exact Grows.of_sem_eq rfl
  | some set =>
    simp only
    split
    · rename_i hv
      exact Grows.update (Kernel.sem_of_semSet hset) rfl hv.1 fun h1 => .inr (hn h1)
    · exact Grows.of_sem_eq rfl

/-- `semop` on the mutex, or one that adds to the count. -/
private theorem grows_semop {k k' : Kernel V} {id : Int} {buf : SemBuf} (hk : WellMade k)
    (hbuf : buf.semNum = 1 → 0 < buf.semOp) (h : k.semop id buf = some k') : Grows k k' := by
  unfold Kernel.semop at h
  cases hset : k.semSet id buf.semNum with
  | none =>
    rw [hset] at h
    cases h
    exact Grows.of_sem_eq rfl
  | some set =>
    have hsem := Kernel.sem_of_semSet hset
    have hcount := hk.count
    unfold Kernel.semVal at hcount
    rw [hsem] at hcount
    simp only [hset] at h
    split at h
    · split at h <;> cases h
      exact Grows.of_sem_eq rfl
    · split at h
      · cases h
      · split at h <;> cases h
        · exact Grows.of_sem_eq rfl
        · refine Grows.update hsem rfl (by omega) ?_
          intro h1
          have hpos := hbuf h1
          rw [h1]
          simp only at hcount
          omega

private theorem grows_store {k k' : Kernel V} {addr i : Int} {v : V} (h : k.store addr i v = some k') : Grows k k' := by
  unfold Kernel.store at h
  split at h
  · split at h <;> cases h
    exact Grows.of_sem_eq rfl
  · cases h

/-- The increment of `push` leaves a count above 0. -/
private theorem count_pos_of_incr {k k' : Kernel V} {sem : Int} (hk : WellMade k) (hon : OnSet k sem)
    (h : k.semop sem ⟨1, 1⟩ = some k') : 0 < k'.semVal 1 := by
  obtain ⟨set, hset, hval⟩ := hon.semSet (n := 1) (by omega)
  have hcount := hk.count
  rw [hval] at hcount
  simp only [Kernel.semop, hset, if_neg (show (1 : Int) ≠ 0 by omega)] at h
  split at h
  · cases h
  · split at h <;> cases h
    · rename_i hmax
      unfold semvmx at hmax
      omega
    · simp only [Kernel.semVal, Function.update_self]
      omega

/-! ### The places of an attach and of a push -/

/-- The set that an attach works on, once it has looked for it. -/
def AttachOk (k : Kernel V) : AttachPc → Prop
  | .oldMutex stack | .newSize _ stack | .newCount stack | .newMutex stack | .shmat stack | .size1 stack =>
    OnSet k stack.sem
  | .probe _ | .oldShm _ _ | .oldSem _ | .newShm _ _ | .newSem _ _ => True

/-- What is known about a process at a place of its push: after its increment there is something on the stack. -/
def PushOk (k : Kernel V) (v : V) (pc : PushPc) : Prop :=
  PcOk (.push v pc) ∧ ∀ buf, pc = .unlock buf → 0 < k.semVal 1

/-- What is known about a process: its stack pointer and its place. -/
structure CreatorOk (k : Kernel V) (q : Proc V) : Prop where
  stack : ∀ stack, q.stack = some stack → OnSet k stack.sem
  place : match q.pc with
    | .idle => True
    | .attach pc => AttachOk k pc
    | .push v pc => PushOk k v pc
    | _ => False

theorem AttachOk.mono {k k' : Kernel V} {pc : AttachPc} (h : AttachOk k pc) (hg : Grows k k') : AttachOk k' pc := by
  cases pc with
  | probe | oldShm | oldSem | newShm | newSem => trivial
  | _ => exact hg.onSet _ h

theorem CreatorOk.mono {k k' : Kernel V} {q : Proc V} (h : CreatorOk k q) (hg : Grows k k') : CreatorOk k' q := by
  obtain ⟨stack, pc⟩ := q
  obtain ⟨hstack, hplace⟩ := h
  refine ⟨fun st hst => hg.onSet _ (hstack st hst), ?_⟩
  cases pc with
  | idle => trivial
  | attach pc => exact AttachOk.mono hplace hg
  | push v pc => exact ⟨hplace.1, fun buf hbuf => hg.count (hplace.2 buf hbuf)⟩
  | _ => exact hplace.elim

/-- The same for what a step of the push leads to. -/
def PushNextOk (k : Kernel V) (v : V) : Next V PushPc → Prop
  | .goto pc => PushOk k v pc
  | .ret r => ∀ v', r = .push v' 0 → 0 < k.semVal 1

/-- A push that gives up has not completed. -/
private theorem pushNextOk_ret (k : Kernel V) (v : V) : PushNextOk k v (.ret (.push v (-1))) := by
  intro v' h
  simp at h

private theorem pushNextOk_lock (k : Kernel V) (v : V) (count : Int) : PushNextOk k v (.goto (.lock count lockBuf)) :=
  ⟨rfl, by rintro buf ⟨⟩⟩

private theorem pushTest_ok (k : Kernel V) (stack : StackT) (v : V) (size count : Int) :
    PushNextOk k v (pushTest stack v size count) := by
  unfold pushTest
  split
  · split
    · exact pushNextOk_ret k v
    · split
      · exact ⟨rfl, by rintro buf ⟨⟩⟩
      · split
        · exact ⟨rfl, by rintro buf ⟨⟩⟩
        · exact pushNextOk_lock k v count
  · exact pushNextOk_lock k v count

section Steps

variable {k k' : Kernel V} {q q' : Proc V} {r : Option (Ret V)}

/-- A step of a push. -/
private theorem pushStep_ok {stack : StackT} {v : V} {pc : PushPc} {next : Next V PushPc} (hk : WellMade k)
    (hon : OnSet k stack.sem) (hok : PushOk k v pc) (hs : pushStep k stack v pc = some (k', next)) :
    Grows k k' ∧ PushNextOk k' v next := by
  obtain ⟨hbuf, hdone⟩ := hok
  cases pc with
  | size | nanosleep size buf =>
    cases hs
    exact ⟨Grows.of_sem_eq rfl, hbuf, by rintro buf ⟨⟩⟩
  | count size =>
    cases hs
    exact ⟨Grows.of_sem_eq rfl, pushTest_ok k stack v size _⟩
  | spin size buf =>
    obtain rfl : buf = lockBuf := hbuf
    cases hs
    refine ⟨Grows.of_sem_eq rfl, ?_⟩
    split
    · exact ⟨rfl, by rintro buf ⟨⟩⟩
    · exact pushNextOk_lock k v _
  | recount size buf =>
    obtain rfl : buf = lockBuf := hbuf
    cases hs
    refine ⟨Grows.of_sem_eq rfl, ?_⟩
    split
    · exact pushNextOk_ret k v
    · exact pushNextOk_lock k v _
  | lock count buf =>
    obtain rfl : buf = lockBuf := hbuf
    simp only [pushStep, Option.map_eq_some_iff] at hs
    obtain ⟨k₁, hop, hs⟩ := hs
    cases hs
    exact ⟨grows_semop hk (by decide) hop, rfl, by rintro buf ⟨⟩⟩
  | write count buf =>
    obtain rfl : buf = lockBuf := hbuf
    simp only [pushStep, Option.map_eq_some_iff] at hs
    obtain ⟨k₁, hstore, hs⟩ := hs
    cases hs
    exact ⟨grows_store hstore, rfl, by rintro buf ⟨⟩⟩
  | incr buf =>
    obtain rfl : buf = ⟨1, 1⟩ := hbuf
    simp only [pushStep, Option.map_eq_some_iff] at hs
    obtain ⟨k₁, hop, hs⟩ := hs
    cases hs
    exact ⟨grows_semop hk (by decide) hop, rfl, fun _ _ => count_pos_of_incr hk hon hop⟩
  | unlock buf =>
    obtain rfl : buf = ⟨2, 1⟩ := hbuf
    simp only [pushStep, Option.map_eq_some_iff] at hs
    obtain ⟨k₁, hop, hs⟩ := hs
    cases hs
    have hg := grows_semop hk (by decide) hop
    exact ⟨hg, fun _ _ => hg.count (hdone _ rfl)⟩

variable [Zero V]

/-- A step of an attach. -/
private theorem attachStep_ok {pc : AttachPc} (hk : WellMade k) (hok : AttachOk k pc)
    (hreset : (Pc.attach pc : Pc V).atReset = true → k.semVal 1 = 0)
    (hfind : (Pc.attach pc : Pc V).atFind = true → k.sem.isSome = true) :
    Grows k (attachStep k pc).1 ∧
      (∀ pc', (attachStep k pc).2 = .inl pc' → AttachOk (attachStep k pc).1 pc') ∧
      ∀ stack, (attachStep k pc).2 = .inr (some stack) → OnSet (attachStep k pc).1 stack.sem := by
  cases pc with
  | probe size =>
    refine ⟨?_, ?_, ?_⟩ <;> simp only [attachStep] <;> split
    · exact grows_shmget k size ipcExcl
    · exact grows_shmget k size ipcExcl
    · rintro pc' ⟨⟩
      trivial
    · rintro pc' ⟨⟩
      trivial
    · rintro stack ⟨⟩
    · rintro stack ⟨⟩
  | oldShm size stack | newShm size stack =>
    refine ⟨grows_shmget k size ipcCreat, ?_, ?_⟩
    · rintro pc' ⟨⟩
      trivial
    · rintro stack ⟨⟩
  | oldSem stack =>
    refine ⟨grows_semget k ipcExcl, ?_, ?_⟩
    · rintro pc' ⟨⟩
      exact semget_onSet hk rfl (.inl (hfind rfl))
    · rintro stack ⟨⟩
  | newSem size stack =>
    refine ⟨grows_semget k ipcCreat, ?_, ?_⟩
    · rintro pc' ⟨⟩
      exact semget_onSet hk rfl (.inr rfl)
    · rintro stack ⟨⟩
  | oldMutex stack | newMutex stack =>
    have hg := grows_setval k stack.sem 2 1 (by omega)
    refine ⟨hg, ?_, ?_⟩
    · rintro pc' ⟨⟩
      exact hg.onSet _ hok
    · rintro stack ⟨⟩
  | newSize size stack =>
    have hg := grows_setval k stack.sem 0 size (by omega)
    refine ⟨hg, ?_, ?_⟩
    · rintro pc' ⟨⟩
      exact hg.onSet _ hok
    · rintro stack ⟨⟩
  | newCount stack =>
    have hg := grows_setval k stack.sem 1 0 fun _ => hreset rfl
    refine ⟨hg, ?_, ?_⟩
    · rintro pc' ⟨⟩
      exact hg.onSet _ hok
    · rintro stack ⟨⟩
  | shmat stack =>
    refine ⟨?_, ?_, ?_⟩ <;> simp only [attachStep] <;> split
    · exact Grows.of_sem_eq rfl
    · exact Grows.of_sem_eq rfl
    · rintro pc' ⟨⟩
    · rintro pc' ⟨⟩
      exact hok
    · rintro stack ⟨⟩
    · rintro stack ⟨⟩
  | size1 stack =>
    refine ⟨Grows.of_sem_eq rfl, ?_, ?_⟩
    · rintro pc' ⟨⟩
    · rintro stack ⟨⟩
      exact hok

/-- A step of a process. -/
private theorem creator_step (hk : WellMade k) (hok : CreatorOk k q) (hreset : q.pc.atReset = true → k.semVal 1 = 0)
    (hfind : q.pc.atFind = true → k.sem.isSome = true) (hs : q.step k = some (k', q', r)) :
    Grows k k' ∧ CreatorOk k' q' ∧ ∀ v, r = some (.push v 0) → 0 < k'.semVal 1 := by
  obtain ⟨stack, pc⟩ := q
  obtain ⟨hstack, hplace⟩ := hok
  cases pc with
  | idle => cases hs
  | attach pc =>
    obtain ⟨hg, hgoto, hret⟩ := attachStep_ok hk hplace hreset hfind
    simp only [Proc.step] at hs
    split at hs <;> cases hs
    · rename_i pc' heq
      rw [heq] at hg hgoto
      exact ⟨hg, ⟨fun st hst => hg.onSet _ (hstack st hst), hgoto _ rfl⟩, by rintro v ⟨⟩⟩
    · rename_i stack' heq
      rw [heq] at hg hret
      refine ⟨hg, ⟨?_, trivial⟩, by rintro v ⟨⟩⟩
      intro st hst
      exact hret st (congrArg Sum.inr hst)
  | push v pc =>
    simp only [Proc.step, Option.bind_eq_some_iff, Option.map_eq_some_iff] at hs
    obtain ⟨st, hst, ⟨k₁, next⟩, hpush, hs⟩ := hs
    obtain ⟨hg, hnext⟩ := pushStep_ok hk (hstack st hst) hplace hpush
    have hstack' : ∀ st', stack = some st' → OnSet k₁ st'.sem := fun st' hst' => hg.onSet _ (hstack st' hst')
    cases next with
    | goto pc' =>
      cases hs
      exact ⟨hg, ⟨hstack', hnext⟩, by rintro v ⟨⟩⟩
    | ret r =>
      cases hs
      refine ⟨hg, ⟨hstack', trivial⟩, ?_⟩
      intro v' hr
      exact hnext v' (Option.some.inj hr)
  | _ => exact hplace.elim

end Steps

/-! ### Whole runs -/

/-- The semaphores and all processes are as they should be, and a completed push has left something. -/
structure Creation (s : State P V) : Prop where
  made : WellMade s.kernel
  creators : ∀ p, CreatorOk s.kernel (s.proc p)
  kept : PushDone s → 0 < s.kernel.semVal 1

private theorem creation_noStack (shmId semId : Int) : Creation (noStack shmId semId : State P V) where
  made := ⟨by rintro set ⟨⟩, Int.le_refl 0⟩
  creators := fun _ => ⟨by rintro stack ⟨⟩, trivial⟩
  kept := by
    rintro ⟨p, v, h⟩
    cases h

section Runs

variable [Zero V] [DecidableEq P] {size shmId semId : Int} {s : State P V} {as : List (Action P V)}

private theorem creation_step (s : State P V) (a : Action P V) (t : State P V) (h : Creation s)
    (ha : a.creates size ∧ CreatesCleanly s a) (hs : s.step a = some t) : Creation t := by
  obtain ⟨hcall, hclean⟩ := ha
  cases a with
  | call p op =>
    simp only [State.step] at hs
    split at hs <;> cases hs
    refine ⟨h.made, ?_, h.kept⟩
    refine forall_proc_update (CreatorOk s.kernel) h.creators ⟨(h.creators p).stack, ?_⟩
    cases op with
    | attach sz => trivial
    | push v => exact ⟨trivial, by rintro buf ⟨⟩⟩
    | _ => exact hcall.elim
  | step p =>
    simp only [State.step, Option.map_eq_some_iff] at hs
    obtain ⟨⟨k, q, r⟩, hs, rfl⟩ := hs
    obtain ⟨hg, hq, hr⟩ := creator_step h.made (h.creators p) hclean.1 hclean.2 hs
    refine ⟨hg.made h.made, forall_proc_update (CreatorOk k) (fun p' => (h.creators p').mono hg) hq, ?_⟩
    rintro ⟨p', v, hmem⟩
    rcases List.mem_append.1 hmem with hmem | hmem
    · exact hg.count (h.kept ⟨p', v, hmem⟩)
    · cases r with
      | none => cases hmem
      | some r =>
        rw [Option.map_some, Option.toList_some, List.mem_singleton, Prod.mk.injEq] at hmem
        exact hr v (by rw [hmem.2])

/-- Every run of processes that attach with one size and push, from a state without a stack, in which the count is
still 0 when a creator sets it to 0 and the semaphores exist when an attach looks for them: no step sets the count
back to 0 after a push has completed, and every process that has got a stack pointer works on the set of semaphores. -/
theorem creation_run (hcalls : ∀ a ∈ as, a.creates size)
    (hclean : AllSteps State.step CreatesCleanly (noStack shmId semId : State P V) as)
    (hrun : run State.step (noStack shmId semId) as = some s) :
    AllSteps State.step (fun s a => PushDone s → ¬ Resets s a) (noStack shmId semId : State P V) as ∧
      (PushDone s → 0 < s.kernel.semVal 1) ∧
      ∀ p stack, (s.proc p).stack = some stack → OnSet s.kernel stack.sem := by
  have hgood := hclean.and_of_mem hcalls
  have hinv := run_invariant_of_good creation_step (creation_noStack shmId semId) hgood hrun
  refine ⟨?_, hinv.kept, fun p => (hinv.creators p).stack⟩
  refine AllSteps.of_invariant creation_step ?_ (creation_noStack shmId semId) hgood
  rintro s a h ⟨-, hc⟩ hdone ⟨p, rfl, hreset⟩
  have hpos := h.kept hdone
  rw [hc.1 hreset] at hpos
  exact Int.lt_irrefl 0 hpos

end Runs

/-- One process creates the stack and pushes, and then another one attaches and pushes. -/
theorem creation_run_two : ∃ (as : List (Action Bool Nat)) (s : State Bool Nat),
    run State.step (noStack 1 1) as = some s ∧ PushDone s ∧ (s.proc false).stack.isSome = true ∧
    AllSteps State.step (fun s a => PushDone s → ¬ Resets s a) (noStack 1 1) as ∧
    (PushDone s → 0 < s.kernel.semVal 1) ∧
    ∀ p stack, (s.proc p).stack = some stack → OnSet s.kernel stack.sem := by
  let as : List (Action Bool Nat) := .call true (.attach 2) :: List.replicate 8 (.step true) ++
    .call true (.push 7) :: List.replicate 6 (.step true) ++ .call false (.attach 2) ::
    List.replicate 6 (.step false) ++ .call false (.push 8) :: List.replicate 6 (.step false)
  have hcalls : ∀ a ∈ as, a.creates 2 := by simp [as, Action.creates]
  exact ⟨as, _, rfl, ⟨true, 7, by decide⟩, rfl, creation_run hcalls (by decide) rfl⟩

/-- Two processes find no segment.  The second one sets the count to 0 when the first one has already pushed.  And an
attach that comes between the `shmget` and the `semget` of the creator returns a stack without semaphores. -/
theorem creation_race :
    (∃ (as : List (Action Bool Nat)) (s t : State Bool Nat), (∀ a ∈ as, a.creates 2) ∧
      run State.step (noStack 1 1) as = some s ∧ PushDone s ∧ Resets s (.step false) ∧
      s.step (.step false) = some t ∧ s.kernel.semVal 1 = 1 ∧ t.kernel.semVal 1 = 0) ∧
    ∃ (as : List (Action Bool Nat)) (s : State Bool Nat) (stack : StackT), (∀ a ∈ as, a.creates 2) ∧
      run State.step (noStack 1 1) as = some s ∧ (s.proc false).stack = some stack ∧
      ¬ OnSet s.kernel stack.sem := by
  refine ⟨⟨.call true (.attach 2) :: .step true :: .call false (.attach 2) :: .step false ::
    (List.replicate 7 (.step true) ++ .call true (.push 7) :: List.replicate 6 (.step true) ++
      List.replicate 3 (.step false)), _, _, ?_, rfl, ⟨true, 7, by decide⟩, ⟨false, rfl, rfl⟩, rfl, rfl, rfl⟩,
    ⟨.call true (.attach 2) :: .step true :: .step true :: .call false (.attach 2) ::
      (List.replicate 6 (.step false) ++ [.step true]), _, _, ?_, rfl, rfl, ?_⟩⟩
  · simp [Action.creates]
  · simp [Action.creates]
  · rintro ⟨set, hset, hid, -⟩
    cases hset
    exact absurd hid (by decide)

end UnixTasks.ShStack
