import Mathlib.Algebra.GroupWithZero.Nat
import Mathlib.Data.Int.Basic

/-!
# System V shared memory and semaphores, as sh_stack uses them

Everything that sh_stack shares between processes lives under one key: at most one segment and at most one set of
semaphores.  Each function below is one system call (or one access to a slot of the attached segment) and is atomic.
Identifiers are `int`s and `-1` reports an error; the permissions 0666 never refuse anybody.
-/

namespace UnixTasks.ShStack

/-- `SEMVMX`, the largest value of a semaphore. -/
def semvmx : Int := 32767

/-- The size of a page, and of a `void*`. -/
def pageSize : Int := 4096
def ptrSize : Int := 8

/-- The flags `IPC_CREAT` and `IPC_EXCL` of `shmget` and `semget`. -/
structure IpcFlg where
  creat : Bool
  excl : Bool
  deriving DecidableEq, Repr

/-- `IPC_EXCL` alone, as in the first call of `attach_stack`. -/
def ipcExcl : IpcFlg := ⟨false, true⟩

/-- `IPC_CREAT | 0666`. -/
def ipcCreat : IpcFlg := ⟨true, false⟩

/-- `struct sembuf`; `sem_flg` is 0 in every call, so a negative operation sleeps. -/
structure SemBuf where
  semNum : Nat
  semOp : Int
  deriving DecidableEq, Repr

structure SemSet where
  id : Int
  nsems : Nat
  val : Nat → Int

/-- A segment of `size` requested bytes, read and written as an array of `void*`. -/
structure Segment (V : Type) where
  id : Int
  size : Int
  slot : Nat → V

structure Kernel (V : Type) where
  shm : Option (Segment V)
  sem : Option SemSet
  /-- The identifiers that the next segment and the next set of semaphores get. -/
  shmId : Int
  semId : Int

variable {V : Type}

/-- The bytes of a segment: its size, rounded up to whole pages. -/
def segmentBytes (size : Int) : Int := (size + (pageSize - 1)) / pageSize * pageSize

/-- Slot `i` lies in a segment of the given size. -/
def InSegment (size i : Int) : Prop := 0 ≤ i ∧ ptrSize * (i + 1) ≤ segmentBytes size

instance (size i : Int) : Decidable (InSegment size i) := inferInstanceAs (Decidable (_ ∧ _))

/-- `shmget(key, size, flg)`.  The size becomes a `size_t`, so a negative one is larger than any segment; a new
segment is filled with zero bytes. -/
def Kernel.shmget [Zero V] (k : Kernel V) (size : Int) (flg : IpcFlg) : Kernel V × Int :=
  match k.shm with
  | some seg =>
    if flg.creat && flg.excl then (k, -1)
    else if size < 0 ∨ seg.size < size then (k, -1)
    else (k, seg.id)
  | none =>
    if flg.creat = false ∨ size ≤ 0 then (k, -1)
    else ({ k with shm := some ⟨k.shmId, size, fun _ => 0⟩ }, k.shmId)

/-- `semget(key, nsems, flg)`; a new set starts with all values 0. -/
def Kernel.semget (k : Kernel V) (nsems : Nat) (flg : IpcFlg) : Kernel V × Int :=
  match k.sem with
  | some set =>
    if flg.creat && flg.excl then (k, -1)
    else if set.nsems < nsems then (k, -1)
    else (k, set.id)
  | none =>
    if flg.creat = false then (k, -1)
    else ({ k with sem := some ⟨k.semId, nsems, fun _ => 0⟩ }, k.semId)

/-- The set of semaphores that `id` names, when it has a semaphore `n`. -/
def Kernel.semSet (k : Kernel V) (id : Int) (n : Nat) : Option SemSet :=
  k.sem.filter fun set => set.id = id ∧ n < set.nsems

/-- `semctl(id, n, GETVAL)`. -/
def Kernel.getval (k : Kernel V) (id : Int) (n : Nat) : Int :=
  match k.semSet id n with
  | some set => set.val n
  | none => -1

/-- `semctl(id, n, SETVAL, v)`; its result is not looked at. -/
def Kernel.setval (k : Kernel V) (id : Int) (n : Nat) (v : Int) : Kernel V :=
  match k.semSet id n with
  | some set => if 0 ≤ v ∧ v ≤ semvmx then { k with sem := some { set with val := Function.update set.val n v } } else k
  | none => k

/-- `semop(id, &buf, 1)`: `none` while the caller sleeps.  An error leaves the set as it is, and the caller does not
look at the result. -/
def Kernel.semop (k : Kernel V) (id : Int) (buf : SemBuf) : Option (Kernel V) :=
  match k.semSet id buf.semNum with
  | some set =>
    let v := set.val buf.semNum + buf.semOp
    if buf.semOp = 0 then if v = 0 then some k else none
    else if v < 0 then none
    else if semvmx < v then some k
    else some { k with sem := some { set with val := Function.update set.val buf.semNum v } }
  | none => some k

/-- `shmat(id, NULL, 0)`.  The address is named by the segment that is mapped there; `-1` is `(void*) -1`. -/
def Kernel.shmat (k : Kernel V) (id : Int) : Int :=
  match k.shm with
  | some seg => if seg.id = id then seg.id else -1
  | none => -1

/-- Reading the slot `i` at an address: `none` outside the segment, where the access faults. -/
def Kernel.load (k : Kernel V) (addr i : Int) : Option V :=
  match k.shm with
  | some seg => if seg.id = addr ∧ InSegment seg.size i then some (seg.slot i.toNat) else none
  | none => none

/-- Writing the slot `i` at an address. -/
def Kernel.store (k : Kernel V) (addr i : Int) (v : V) : Option (Kernel V) :=
  match k.shm with
  | some seg =>
    if seg.id = addr ∧ InSegment seg.size i then
      some { k with shm := some { seg with slot := Function.update seg.slot i.toNat v } }
    else none
  | none => none

end UnixTasks.ShStack
