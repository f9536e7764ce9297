import UnixTasks.ShStack.Machine

/-!
# Mutual exclusion in sh_stack

The setting of all results about concurrent calls: a stack exists, every process is attached to it, and nobody
attaches any more.  Then the kernel is determined by the values of the three semaphores and by the slots
(`Base.kernel`), semaphore 2 is a mutex, and only its holder touches semaphore 1 and the slots.

* (`PcOk`) the `struct sembuf` that a call patches holds, at each `semop`, the operation that belongs there;
* (`Exclusive`) semaphore 2 is 0 exactly when one process is between its acquiring and its releasing `semop`;
* (`exclusive_step`) every step of every process keeps this.
-/

namespace UnixTasks.ShStack

open ActionSystem

/-! ### An existing stack -/

/-- What stays fixed while a stack exists: the identifiers and the size of the segment. -/
structure Base where
  shmId : Int
  segSize : Int
  semId : Int
  nextShmId : Int
  nextSemId : Int

variable {P V : Type}

/-- The kernel with the given values of the semaphores and the given slots. -/
def Base.kernel (b : Base) (val : Nat → Int) (slot : Nat → V) : Kernel V :=
  ⟨some ⟨b.shmId, b.segSize, slot⟩, some ⟨b.semId, 3, val⟩, b.nextShmId, b.nextSemId⟩

/-- A stack pointer as `attach_stack` returns it for the stack `b`. -/
def Base.Attached (b : Base) (stack : StackT) : Prop := stack.sem = b.semId ∧ stack.shStack = b.shmId

/-- A process that is attached to the stack `b`. -/
def Base.AttachedProc (b : Base) (q : Proc V) : Prop := ∃ stack, q.stack = some stack ∧ b.Attached stack

@[simp] theorem Base.getval_kernel (b : Base) (val : Nat → Int) (slot : Nat → V) {n : Nat} (hn : n < 3) :
    (b.kernel val slot).getval b.semId n = val n := by
  simp [Base.kernel, Kernel.getval, Kernel.semSet, Option.filter, hn]

theorem Base.semop_kernel (b : Base) (val : Nat → Int) (slot : Nat → V) {n : Nat} (hn : n < 3) {op : Int}
    (hop : op ≠ 0) :
    (b.kernel val slot).semop b.semId ⟨n, op⟩ =
      if val n + op < 0 then none
      else if semvmx < val n + op then some (b.kernel val slot)
      else some (b.kernel (Function.update val n (val n + op)) slot) := by
  simp only [Base.kernel, Kernel.semop, Kernel.semSet, Option.filter, hn, hop, and_self, decide_true, if_true, if_false]

/-- Acquiring the mutex. -/
private theorem Base.semop_lock (b : Base) (val : Nat → Int) (slot : Nat → V) {k : Kernel V} (hval : val 2 ≤ 1)
    (h : (b.kernel val slot).semop b.semId lockBuf = some k) :
    val 2 = 1 ∧ k = b.kernel (Function.update val 2 0) slot := by
  rw [lockBuf, b.semop_kernel val slot (by omega) (by omega)] at h
  split at h
  · cases h
  · have hone : val 2 = 1 := by omega
    rw [hone, if_neg (by decide), Option.some.injEq] at h
    exact ⟨hone, by rw [← h]; rfl⟩

/-- Releasing the mutex. -/
private theorem Base.semop_unlock (b : Base) (val : Nat → Int) (slot : Nat → V) {k : Kernel V} (hval : val 2 = 0)
    (h : (b.kernel val slot).semop b.semId ⟨2, 1⟩ = some k) : k = b.kernel (Function.update val 2 1) slot := by
  rw [b.semop_kernel val slot (by omega) (by omega), hval, if_neg (by omega), if_neg (by decide),
    Option.some.injEq] at h
  rw [← h]
  rfl

private theorem Base.load_kernel {b : Base} {val : Nat → Int} {slot : Nat → V} {i : Int} {v : V}
    (h : (b.kernel val slot).load b.shmId i = some v) : InSegment b.segSize i ∧ v = slot i.toNat := by
  simp only [Base.kernel, Kernel.load, true_and] at h
  split at h
  · exact ⟨by assumption, (Option.some.inj h).symm⟩
  · cases h

private theorem Base.store_kernel {b : Base} {val : Nat → Int} {slot : Nat → V} {i : Int} {v : V} {k : Kernel V}
    (h : (b.kernel val slot).store b.shmId i v = some k) :
    InSegment b.segSize i ∧ k = b.kernel val (Function.update slot i.toNat v) := by
  simp only [Base.kernel, Kernel.store, true_and] at h
  split at h
  · exact ⟨by assumption, (Option.some.inj h).symm⟩
  · cases h

/-! ### The places of a call -/

/-- Between the acquiring and the releasing `semop` on semaphore 2. -/
def Pc.inside : Pc V → Bool
  | .push _ (.write ..) | .push _ (.incr ..) | .push _ (.unlock ..) => true
  | .pop (.read ..) | .pop (.decr ..) | .pop (.unlock ..) => true
  | .printAll (.read ..) | .printAll (.unlock ..) => true
  | _ => false

/-- At the acquiring `semop`. -/
def Pc.atLock : Pc V → Bool
  | .push _ (.lock ..) | .pop (.lock ..) | .printAll (.lock ..) => true
  | _ => false

/-- The `struct sembuf` at each place of `push`, `pop` and `print_all`; no process is in `attach_stack`. -/
def PcOk : Pc V → Prop
  | .attach _ => False
  | .push _ (.spin _ buf) | .push _ (.nanosleep _ buf) | .push _ (.recount _ buf) => buf = lockBuf
  | .push _ (.lock _ buf) | .push _ (.write _ buf) => buf = lockBuf
  | .push _ (.incr buf) => buf = ⟨1, 1⟩
  | .push _ (.unlock buf) => buf = ⟨2, 1⟩
  | .pop (.spin buf) | .pop (.nanosleep buf) | .pop (.recount buf) => buf = lockBuf
  | .pop (.lock _ buf) | .pop (.read _ buf) => buf = lockBuf
  | .pop (.decr _ buf) => buf = ⟨1, -1⟩
  | .pop (.unlock _ buf) => buf = ⟨2, 1⟩
  | .printAll (.lock _ buf) | .printAll (.read _ _ buf) => buf = lockBuf
  | .printAll (.unlock buf) => buf = ⟨2, 1⟩
  | _ => True

/-- The place that follows the acquiring `semop`. -/
def Pc.locked : Pc V → Pc V
  | .push val (.lock count buf) => .push val (.write count buf)
  | .pop (.lock count buf) => .pop (.read count buf)
  | .printAll (.lock count buf) => .printAll (printLoop 0 count buf)
  | pc => pc

/-- The steps inside: what they do to the semaphores and the slots, where they lead and what they return. -/
inductive InsideStep (b : Base) (val : Nat → Int) (slot : Nat → V) :
    Pc V → (Nat → Int) → (Nat → V) → Pc V → Option (Ret V) → Prop
  | write {v : V} {count : Int} {buf : SemBuf} (hseg : InSegment b.segSize count) :
    InsideStep b val slot (.push v (.write count buf)) val (Function.update slot count.toNat v)
      (.push v (.incr ⟨1, 1⟩)) none
  | incr {v : V} {buf : SemBuf} (hmax : val 1 + 1 ≤ semvmx) :
    InsideStep b val slot (.push v (.incr buf)) (Function.update val 1 (val 1 + 1)) slot
      (.push v (.unlock ⟨2, 1⟩)) none
  | incrFull {v : V} {buf : SemBuf} (hmax : semvmx < val 1 + 1) :
    InsideStep b val slot (.push v (.incr buf)) val slot (.push v (.unlock ⟨2, 1⟩)) none
  | pushUnlock {v : V} {buf : SemBuf} :
    InsideStep b val slot (.push v (.unlock buf)) (Function.update val 2 1) slot .idle (some (.push v 0))
  | read {count : Int} {buf : SemBuf} (hseg : InSegment b.segSize (count - 1)) :
    InsideStep b val slot (.pop (.read count buf)) val slot
      (.pop (.decr (slot (count - 1).toNat) ⟨1, -1⟩)) none
  | decr {out : V} {buf : SemBuf} (hpos : 0 < val 1) :
    InsideStep b val slot (.pop (.decr out buf)) (Function.update val 1 (val 1 - 1)) slot
      (.pop (.unlock out ⟨2, 1⟩)) none
  | popUnlock {out : V} {buf : SemBuf} :
    InsideStep b val slot (.pop (.unlock out buf)) (Function.update val 2 1) slot .idle
      (some (.pop (some out) 0))
  | printRead {i : Nat} {count : Int} {buf : SemBuf} (hseg : InSegment b.segSize i) :
    InsideStep b val slot (.printAll (.read i count buf)) val slot (.printAll (printLoop (i + 1) count lockBuf)) none
  | printUnlock {buf : SemBuf} :
    InsideStep b val slot (.printAll (.unlock buf)) (Function.update val 2 1) slot .idle
      (some (.printAll 0))

@[simp] theorem printLoop_inside (i : Nat) (count : Int) (buf : SemBuf) :
    Pc.inside (.printAll (printLoop i count buf) : Pc V) = true := by
  unfold printLoop; split <;> rfl

@[simp] theorem printLoop_pcOk (i : Nat) (count : Int) : PcOk (.printAll (printLoop i count lockBuf) : Pc V) := by
  unfold printLoop; split <;> rfl

/-! ### The steps of one process -/

section Steps

variable [Zero V] {b : Base} {val : Nat → Int} {slot : Nat → V} {stack : StackT} {pc : Pc V} {k : Kernel V}
  {q : Proc V} {r : Option (Ret V)}

/-- A step at the acquiring `semop`. -/
private theorem lock_step (hst : b.Attached stack) (hok : PcOk pc) (hl : pc.atLock = true) (hval : val 2 ≤ 1)
    (hs : Proc.step (b.kernel val slot) ⟨some stack, pc⟩ = some (k, q, r)) :
    val 2 = 1 ∧ k = b.kernel (Function.update val 2 0) slot ∧ q = ⟨some stack, pc.locked⟩ ∧ r = none := by
  obtain ⟨hsem, -⟩ := hst
  cases pc with
  | push v pc =>
    cases pc <;> simp only [Pc.atLock, Bool.false_eq_true] at hl
    case lock count buf =>
      obtain rfl : buf = lockBuf := hok
      simp only [Proc.step, pushStep, hsem, Option.bind_some, Option.map_map, Option.map_eq_some_iff] at hs
      obtain ⟨k', hk, hs⟩ := hs
      obtain ⟨hone, rfl⟩ := b.semop_lock val slot hval hk
      cases hs
      exact ⟨hone, rfl, rfl, rfl⟩
  | pop pc =>
    cases pc <;> simp only [Pc.atLock, Bool.false_eq_true] at hl
    case lock count buf =>
      obtain rfl : buf = lockBuf := hok
      simp only [Proc.step, popStep, hsem, Option.bind_some, Option.map_map, Option.map_eq_some_iff] at hs
      obtain ⟨k', hk, hs⟩ := hs
      obtain ⟨hone, rfl⟩ := b.semop_lock val slot hval hk
      cases hs
      exact ⟨hone, rfl, rfl, rfl⟩
  | printAll pc =>
    cases pc <;> simp only [Pc.atLock, Bool.false_eq_true] at hl
    case lock count buf =>
      obtain rfl : buf = lockBuf := hok
      simp only [Proc.step, printStep, hsem, Option.bind_some, Option.map_map, Option.map_eq_some_iff] at hs
      obtain ⟨k', hk, hs⟩ := hs
      obtain ⟨hone, rfl⟩ := b.semop_lock val slot hval hk
      cases hs
      exact ⟨hone, rfl, rfl, rfl⟩
  | _ => cases hl

/-- A step inside. -/
private theorem inside_step (hst : b.Attached stack) (hok : PcOk pc) (hin : pc.inside = true) (hval : val 2 = 0)
    (hmax : val 1 ≤ semvmx)
    (hs : Proc.step (b.kernel val slot) ⟨some stack, pc⟩ = some (k, q, r)) :
    ∃ val' slot', k = b.kernel val' slot' ∧ q.stack = some stack ∧ InsideStep b val slot pc val' slot' q.pc r := by
  obtain ⟨hsem, hshm⟩ := hst
  cases pc with
  | push v pc =>
    cases pc <;> simp only [Pc.inside, Bool.false_eq_true] at hin
    case write count buf =>
      obtain rfl : buf = lockBuf := hok
      simp only [Proc.step, pushStep, hshm, Option.bind_some, Option.map_map, Option.map_eq_some_iff] at hs
      obtain ⟨k', hk, hs⟩ := hs
      obtain ⟨hseg, rfl⟩ := Base.store_kernel hk
      cases hs
      exact ⟨_, _, rfl, rfl, .write hseg⟩
    case incr buf =>
      obtain rfl : buf = ⟨1, 1⟩ := hok
      simp only [Proc.step, pushStep, hsem, Option.bind_some, Option.map_map, Option.map_eq_some_iff] at hs
      obtain ⟨k', hk, hs⟩ := hs
      rw [b.semop_kernel val slot (by omega) (by omega)] at hk
      split at hk
      · cases hk
      · split at hk <;> cases hk <;> cases hs
        · exact ⟨_, _, rfl, rfl, .incrFull (by assumption)⟩
        · exact ⟨_, _, rfl, rfl, .incr (by omega)⟩
    case unlock buf =>
      obtain rfl : buf = ⟨2, 1⟩ := hok
      simp only [Proc.step, pushStep, hsem, Option.bind_some, Option.map_map, Option.map_eq_some_iff] at hs
      obtain ⟨k', hk, hs⟩ := hs
      obtain rfl := b.semop_unlock val slot hval hk
      cases hs
      exact ⟨_, _, rfl, rfl, .pushUnlock⟩
  | pop pc =>
    cases pc <;> simp only [Pc.inside, Bool.false_eq_true] at hin
    case read count buf =>
      obtain rfl : buf = lockBuf := hok
      simp only [Proc.step, popStep, hshm, Option.bind_some, Option.map_map, Option.map_eq_some_iff] at hs
      obtain ⟨v, hv, hs⟩ := hs
      obtain ⟨hseg, rfl⟩ := Base.load_kernel hv
      cases hs
      exact ⟨_, _, rfl, rfl, .read hseg⟩
    case decr out buf =>
      obtain rfl : buf = ⟨1, -1⟩ := hok
      simp only [Proc.step, popStep, hsem, Option.bind_some, Option.map_map, Option.map_eq_some_iff] at hs
      obtain ⟨k', hk, hs⟩ := hs
      rw [b.semop_kernel val slot (by omega) (by omega)] at hk
      split at hk
      · cases hk
      · split at hk <;> cases hk <;> cases hs
        · omega
        · exact ⟨_, _, rfl, rfl, .decr (by omega)⟩
    case unlock out buf =>
      obtain rfl : buf = ⟨2, 1⟩ := hok
      simp only [Proc.step, popStep, hsem, Option.bind_some, Option.map_map, Option.map_eq_some_iff] at hs
      obtain ⟨k', hk, hs⟩ := hs
      obtain rfl := b.semop_unlock val slot hval hk
      cases hs
      exact ⟨_, _, rfl, rfl, .popUnlock⟩
  | printAll pc =>
    cases pc <;> simp only [Pc.inside, Bool.false_eq_true] at hin
    case read i count buf =>
      obtain rfl : buf = lockBuf := hok
      simp only [Proc.step, printStep, hshm, Option.bind_some, Option.map_map, Option.map_eq_some_iff] at hs
      obtain ⟨v, hv, hs⟩ := hs
      cases hs
      exact ⟨_, _, rfl, rfl, .printRead (Base.load_kernel hv).1⟩
    case unlock buf =>
      obtain rfl : buf = ⟨2, 1⟩ := hok
      simp only [Proc.step, printStep, hsem, Option.bind_some, Option.map_map, Option.map_eq_some_iff] at hs
      obtain ⟨k', hk, hs⟩ := hs
      obtain rfl := b.semop_unlock val slot hval hk
      cases hs
      exact ⟨_, _, rfl, rfl, .printUnlock⟩
  | _ => cases hin

/-- A result that moves no value: of a call that failed, or that does not push or pop. -/
def Ret.noTransfer : Ret V → Prop
  | .push _ ret | .pop _ ret => ret ≠ 0
  | _ => True

/-- A step outside only reads the semaphores. -/
private theorem look_step (hst : b.Attached stack) (hok : PcOk pc) (hin : pc.inside = false) (hl : pc.atLock = false)
    (hs : Proc.step (b.kernel val slot) ⟨some stack, pc⟩ = some (k, q, r)) :
    k = b.kernel val slot ∧ (∃ stack', q.stack = some stack' ∧ b.Attached stack' ∧
      ((∀ w tm, pc ≠ .setWait w tm) → stack' = stack)) ∧
      q.pc.inside = false ∧ PcOk q.pc ∧ ∀ x ∈ r, x.noTransfer := by
  cases pc with
  | idle => cases hs
  | attach pc => exact hok.elim
  | push v pc =>
    cases pc <;> simp only [Pc.inside, Pc.atLock, reduceCtorEq] at hin hl <;>
      simp only [Proc.step, pushStep, pushTest, Option.bind_some, Option.map_some, Option.some.injEq] at hs <;>
      (repeat' split at hs) <;> cases hs <;>
      simp_all [PcOk, Pc.inside, Ret.noTransfer]
  | pop pc =>
    cases pc <;> simp only [Pc.inside, Pc.atLock, reduceCtorEq] at hin hl <;>
      simp only [Proc.step, popStep, popTest, Option.bind_some, Option.map_some, Option.some.injEq] at hs <;>
      (repeat' split at hs) <;> cases hs <;>
      simp_all [PcOk, Pc.inside, Ret.noTransfer]
  | printAll pc =>
    cases pc <;> simp only [Pc.inside, Pc.atLock, reduceCtorEq] at hin hl <;>
      simp only [Proc.step, printStep, Option.bind_some, Option.map_some, Option.some.injEq] at hs <;>
      cases hs <;>
      simp_all [PcOk, Pc.inside, Ret.noTransfer]
  | getSize | getCount =>
    simp only [Proc.step, Option.map_some, Option.some.injEq] at hs
    cases hs
    simp_all [PcOk, Pc.inside, Ret.noTransfer]
  | setWait w tm =>
    simp only [Proc.step, Option.map_some, Option.some.injEq] at hs
    cases hs
    simp_all [PcOk, Pc.inside, Ret.noTransfer, Base.Attached]

end Steps

/-- The calls other than `attach_stack`. -/
def Action.noAttach : Action P V → Prop
  | .call _ (.attach _) => False
  | _ => True

/-! ### All processes together -/

/-- Every process is attached to the stack `b`, semaphore 1 is a possible count, and semaphore 2 is the mutex of the
process `holder`. -/
structure Exclusive (b : Base) (val : Nat → Int) (slot : Nat → V) (holder : Option P) (s : State P V) : Prop where
  kernel : s.kernel = b.kernel val slot
  attached : ∀ p, b.AttachedProc (s.proc p)
  pcOk : ∀ p, PcOk (s.proc p).pc
  count_nonneg : 0 ≤ val 1
  count_le : val 1 ≤ semvmx
  mutex : val 2 = if holder.isSome then 0 else 1
  inside_iff : ∀ p, (s.proc p).pc.inside = true ↔ holder = some p

/-- The steps of the whole system: a call begins, a process looks at the semaphores, takes the mutex, or moves
inside. -/
inductive Moved [Zero V] [DecidableEq P] (b : Base) (val : Nat → Int) (slot : Nat → V) (holder : Option P)
    (s : State P V) : Action P V → (Nat → Int) → (Nat → V) → Option P → State P V → Prop
  | call {p : P} {op : Op V} (hidle : (s.proc p).pc = .idle) :
    Moved b val slot holder s (.call p op) val slot holder
      { s with proc := Function.update s.proc p { s.proc p with pc := op.start } }
  | look {p : P} {q : Proc V} {r : Option (Ret V)} (hin : (s.proc p).pc.inside = false)
      (hl : (s.proc p).pc.atLock = false) (hs : (s.proc p).step s.kernel = some (s.kernel, q, r))
      (hr : ∀ x ∈ r, x.noTransfer) :
    Moved b val slot holder s (.step p) val slot holder
      ⟨s.kernel, Function.update s.proc p q, s.log ++ (r.map (p, ·)).toList⟩
  | lock {p : P} (hl : (s.proc p).pc.atLock = true) (hfree : holder = none) :
    Moved b val slot holder s (.step p) (Function.update val 2 0) slot (some p)
      ⟨b.kernel (Function.update val 2 0) slot,
        Function.update s.proc p { s.proc p with pc := (s.proc p).pc.locked }, s.log⟩
  | inside {p : P} {pc : Pc V} {r : Option (Ret V)} {val' : Nat → Int} {slot' : Nat → V} (hholder : holder = some p)
      (h : InsideStep b val slot (s.proc p).pc val' slot' pc r) :
    Moved b val slot holder s (.step p) val' slot' (if pc.inside then some p else none)
      ⟨b.kernel val' slot', Function.update s.proc p { s.proc p with pc := pc },
        s.log ++ (r.map (p, ·)).toList⟩

private theorem Op.start_pcOk {op : Op V} (h : ∀ size, op ≠ .attach size) :
    PcOk op.start ∧ op.start.inside = false := by
  cases op with
  | attach size => exact absurd rfl (h size)
  | _ => exact ⟨trivial, rfl⟩

private theorem Pc.locked_pcOk {pc : Pc V} (hok : PcOk pc) (hl : pc.atLock = true) :
    PcOk pc.locked ∧ pc.locked.inside = true := by
  cases pc with
  | push v pc | pop pc =>
    cases pc <;> simp only [Pc.atLock, Bool.false_eq_true] at hl
    exact ⟨hok, rfl⟩
  | printAll pc =>
    cases pc <;> simp only [Pc.atLock, Bool.false_eq_true] at hl
    obtain rfl := hok
    exact ⟨printLoop_pcOk 0 _, printLoop_inside 0 _ _⟩
  | _ => cases hl

theorem Pc.inside_of_atLock {pc : Pc V} (hl : pc.atLock = true) : pc.inside = false := by
  cases pc with
  | push v pc | pop pc | printAll pc =>
    cases pc <;> simp only [Pc.atLock, Bool.false_eq_true] at hl
    rfl
  | _ => cases hl

theorem InsideStep.pcOk {b : Base} {val val' : Nat → Int} {slot slot' : Nat → V} {pc pc' : Pc V}
    {r : Option (Ret V)} (h : InsideStep b val slot pc val' slot' pc' r) : PcOk pc' := by
  cases h with
  | printRead => exact printLoop_pcOk _ _
  | _ => trivial

/-- The mutex is given back by the steps that leave, and by no others. -/
theorem InsideStep.mutex {b : Base} {val val' : Nat → Int} {slot slot' : Nat → V} {pc pc' : Pc V}
    {r : Option (Ret V)} (h : InsideStep b val slot pc val' slot' pc' r) (hval : val 2 = 0) :
    val' 2 = if pc'.inside then 0 else 1 := by
  cases h with
  | printRead => rw [printLoop_inside, if_pos rfl, hval]
  | _ => first | exact hval | rfl

theorem InsideStep.count {b : Base} {val val' : Nat → Int} {slot slot' : Nat → V} {pc pc' : Pc V}
    {r : Option (Ret V)} (h : InsideStep b val slot pc val' slot' pc' r) (h0 : 0 ≤ val 1) (h1 : val 1 ≤ semvmx) :
    0 ≤ val' 1 ∧ val' 1 ≤ semvmx := by
  cases h with
  | incr hmax => exact ⟨show 0 ≤ val 1 + 1 by omega, hmax⟩
  | decr hpos => exact ⟨show 0 ≤ val 1 - 1 by omega, show val 1 - 1 ≤ semvmx by omega⟩
  | _ => exact ⟨h0, h1⟩

section System

variable [DecidableEq P] {b : Base} {val : Nat → Int} {slot : Nat → V} {holder : Option P}

/-- What holds of every process still does after a change of one of them. -/
theorem forall_proc_update (C : Proc V → Prop) {f : P → Proc V} {p : P} {q : Proc V} (h : ∀ p, C (f p)) (hq : C q) :
    ∀ p', C (Function.update f p q p') :=
  (Function.forall_update_iff f fun _ q => C q).2 ⟨hq, fun p' _ => h p'⟩

/-- After a step of `p` the places of the other processes are as before. -/
private theorem inside_iff_update {s : State P V} {p : P} {q : Proc V} {holder' : Option P}
    (h : Exclusive b val slot holder s) (hp : q.pc.inside = true ↔ holder' = some p)
    (hother : ∀ p', p' ≠ p → (holder = some p' ↔ holder' = some p')) (p' : P) :
    (Function.update s.proc p q p').pc.inside = true ↔ holder' = some p' := by
  revert p'
  refine (Function.forall_update_iff s.proc fun p' q => q.pc.inside = true ↔ holder' = some p').2
    ⟨hp, fun p' hpp => ?_⟩
  rw [h.inside_iff p', hother p' hpp]

/-- A step of a process that does not hold the mutex leaves the holder where it is. -/
theorem holder_update {f : P → Proc V} {p : P} {q : Proc V} {holder : Option P} (h : holder ≠ some p) :
    (holder.map fun p' => (Function.update f p q p').pc) = holder.map fun p' => (f p').pc := by
  cases holder with
  | none => rfl
  | some p' => simp [Function.update_of_ne (show p' ≠ p from fun e => h (congrArg some e))]

variable [Zero V]

/-- What every step does, and that it keeps the mutual exclusion. -/
theorem exclusive_step {s t : State P V} {a : Action P V} (h : Exclusive b val slot holder s) (ha : a.noAttach)
    (hs : s.step a = some t) :
    ∃ val' slot' holder', Moved b val slot holder s a val' slot' holder' t ∧ Exclusive b val' slot' holder' t := by
  cases a with
  | call p op =>
    simp only [State.step] at hs
    split at hs <;> cases hs
    rename_i hidle
    have hnot : holder ≠ some p := fun hp => by simpa [hidle, Pc.inside] using (h.inside_iff p).2 hp
    obtain ⟨hok, hin⟩ := op.start_pcOk (fun size e => by subst e; exact ha)
    refine ⟨val, slot, holder, .call hidle, { h with
      attached := forall_proc_update b.AttachedProc h.attached (h.attached p)
      pcOk := forall_proc_update (fun q => PcOk q.pc) h.pcOk hok
      inside_iff := inside_iff_update h (by simp [hin, hnot]) (fun _ _ => Iff.rfl) }⟩
  | step p =>
    obtain ⟨stack, hstack, hst⟩ := h.attached p
    have hproc : s.proc p = ⟨some stack, (s.proc p).pc⟩ := by rw [← hstack]
    simp only [State.step, Option.map_eq_some_iff] at hs
    obtain ⟨⟨k, q, r⟩, hs, rfl⟩ := hs
    have hs' := hs
    rw [h.kernel, hproc] at hs
    by_cases hl : (s.proc p).pc.atLock = true
    · -- the mutex was free, and `p` holds it now
      have hle : val 2 ≤ 1 := by rw [h.mutex]; split <;> omega
      obtain ⟨hone, rfl, rfl, rfl⟩ := lock_step hst (h.pcOk p) hl hle hs
      have hfree : holder = none := by
        have hm := h.mutex
        rw [hone] at hm
        cases holder with
        | none => rfl
        | some p => simp at hm
      obtain ⟨hok, hin⟩ := Pc.locked_pcOk (h.pcOk p) hl
      have hmoved := @Moved.lock P V _ _ b val slot holder s p hl hfree
      refine ⟨Function.update val 2 0, slot, some p, by simpa [hstack] using hmoved, ?_⟩
      exact { h with
        kernel := rfl
        attached := forall_proc_update b.AttachedProc h.attached ⟨stack, rfl, hst⟩
        pcOk := forall_proc_update (fun q => PcOk q.pc) h.pcOk hok
        mutex := rfl
        inside_iff := inside_iff_update h (by simp [hin]) (fun p' hp' => by simp [hfree, Ne.symm hp']) }
    · by_cases hin : (s.proc p).pc.inside = true
      · -- `p` holds the mutex
        have hholder : holder = some p := (h.inside_iff p).1 hin
        have hzero : val 2 = 0 := by rw [h.mutex, hholder]; rfl
        obtain ⟨val', slot', rfl, hq, hinside⟩ := inside_step hst (h.pcOk p) hin hzero h.count_le hs
        obtain ⟨qstack, pc⟩ := q
        obtain rfl : qstack = (s.proc p).stack := hq.trans hstack.symm
        obtain ⟨h0, h1⟩ := hinside.count h.count_nonneg h.count_le
        refine ⟨val', slot', if pc.inside then some p else none, .inside hholder hinside, ?_⟩
        exact { h with
          kernel := rfl
          attached := forall_proc_update b.AttachedProc h.attached ⟨stack, hstack, hst⟩
          pcOk := forall_proc_update (fun q => PcOk q.pc) h.pcOk hinside.pcOk
          count_nonneg := h0
          count_le := h1
          mutex := by rw [hinside.mutex hzero]; cases pc.inside <;> rfl
          inside_iff := inside_iff_update h (by simp) (fun p' hp' => by simp [hholder, Ne.symm hp']) }
      · simp only [Bool.not_eq_true] at hl hin
        obtain ⟨rfl, ⟨stack', hq, hst', -⟩, hin', hok, hr⟩ := look_step hst (h.pcOk p) hin hl hs
        rw [← h.kernel] at hs'
        have hmoved := @Moved.look P V _ _ b val slot holder s p q r hin hl hs' hr
        have hnot : holder ≠ some p := fun hp => by simpa [hin] using (h.inside_iff p).2 hp
        refine ⟨val, slot, holder, by rwa [← h.kernel], ?_⟩
        exact { h with
          kernel := rfl
          attached := forall_proc_update b.AttachedProc h.attached ⟨stack', hq, hst'⟩
          pcOk := forall_proc_update (fun q => PcOk q.pc) h.pcOk hok
          inside_iff := inside_iff_update h (by simp [hin', hnot]) (fun _ _ => Iff.rfl) }

end System

end UnixTasks.ShStack
