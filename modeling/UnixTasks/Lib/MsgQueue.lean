import Mathlib.Data.List.Basic

/-!
# System V message queues under one key

At most one queue exists under a key.  Its identifier is never given again, so a process that holds the identifier of a
removed queue gets errors from then on.  A queue holds at most `cap` messages; `none` as a result says that the caller
sleeps.

* (`takeType`) the first message of a type and the rest;
* (`msgget`, `msgctlRmid`, `msgsnd`, `msgrcv`) the system calls;
* (`Live`) the identifier names the queue that exists.
-/

namespace MsgQueue

variable {D : Type*}

/-- A message: its type and what it carries. -/
structure Msg (D : Type*) where
  mtype : Int
  data : D
  deriving DecidableEq, Repr

structure Kernel (D : Type*) where
  /-- The queue under the key: its identifier and its messages, oldest first. -/
  queue : Option (Nat × List (Msg D))
  /-- The identifier of the next queue. -/
  next : Nat
  deriving DecidableEq, Repr

/-- The oldest message of type `t`, and the others. -/
def takeType (t : Int) : List (Msg D) → Option (Msg D × List (Msg D))
  | [] => none
  | m :: ms => if m.mtype = t then some (m, ms) else (takeType t ms).map fun (x, rest) => (x, m :: rest)

/-- `msgget(key, 0)`; `none` is -1. -/
def Kernel.find (k : Kernel D) : Option Nat := k.queue.map Prod.fst

/-- `msgget(key, IPC_CREAT | 0666)`. -/
def Kernel.msgget (k : Kernel D) : Kernel D × Nat :=
  match k.queue with
  | some (id, _) => (k, id)
  | none => (⟨some (k.next, []), k.next + 1⟩, k.next)

/-- The identifier names the queue that exists. -/
def Kernel.Live (k : Kernel D) (id : Option Nat) : Prop := ∃ q ms, k.queue = some (q, ms) ∧ id = some q

/-- `msgctl(id, IPC_RMID, 0)`. -/
def Kernel.msgctlRmid (k : Kernel D) (id : Option Nat) : Kernel D :=
  match k.queue with
  | some (q, _) => if id = some q then { k with queue := none } else k
  | none => k

/-- `msgsnd(id, &m, size, 0)`; an error leaves everything as it is. -/
def Kernel.msgsnd (cap : Nat) (k : Kernel D) (id : Option Nat) (m : Msg D) : Option (Kernel D) :=
  match k.queue with
  | some (q, ms) =>
    if id = some q then if ms.length < cap then some { k with queue := some (q, ms ++ [m]) } else none
    else some k
  | none => some k

/-- `msgrcv(id, &m, size, t, 0)`; the message is `none` when the call fails. -/
def Kernel.msgrcv (k : Kernel D) (id : Option Nat) (t : Int) : Option (Kernel D × Option (Msg D)) :=
  match k.queue with
  | some (q, ms) =>
    if id = some q then (takeType t ms).map fun (m, rest) => ({ k with queue := some (q, rest) }, some m)
    else some (k, none)
  | none => some (k, none)

/-! ### What is taken was there -/

theorem takeType_perm {t : Int} {ms rest : List (Msg D)} {m : Msg D} (h : takeType t ms = some (m, rest)) :
    ms.Perm (m :: rest) ∧ m.mtype = t := by
  induction ms generalizing rest with
  | nil => cases h
  | cons a ms ih =>
    rw [takeType] at h
    split at h
    · cases h
      exact ⟨.refl _, by assumption⟩
    · rw [Option.map_eq_some_iff] at h
      obtain ⟨⟨x, rest'⟩, htake, heq⟩ := h
      cases heq
      obtain ⟨hperm, htype⟩ := ih htake
      exact ⟨(hperm.cons a).trans (.swap ..), htype⟩

/-! ### The calls, by cases -/

variable {k : Kernel D} {q : Nat} {ms : List (Msg D)} {id : Option Nat}

theorem msgget_of_queue (h : k.queue = some (q, ms)) : k.msgget = (k, q) := by
  unfold Kernel.msgget
  rw [h]

theorem msgget_of_none (h : k.queue = none) : k.msgget = (⟨some (k.next, []), k.next + 1⟩, k.next) := by
  unfold Kernel.msgget
  rw [h]

/-- Calls on a dead identifier fail at once. -/
theorem msgsnd_of_dead {cap : Nat} {m : Msg D} (h : ¬ k.Live id) : k.msgsnd cap id m = some k := by
  unfold Kernel.msgsnd
  split
  · rename_i q ms hq
    rw [if_neg fun e => h ⟨q, ms, hq, e⟩]
  · rfl

theorem msgrcv_of_dead {t : Int} (h : ¬ k.Live id) : k.msgrcv id t = some (k, none) := by
  unfold Kernel.msgrcv
  split
  · rename_i q ms hq
    rw [if_neg fun e => h ⟨q, ms, hq, e⟩]
  · rfl

theorem msgctlRmid_of_dead (h : ¬ k.Live id) : k.msgctlRmid id = k := by
  unfold Kernel.msgctlRmid
  split
  · rename_i q ms hq
    rw [if_neg fun e => h ⟨q, ms, hq, e⟩]
  · rfl

theorem msgctlRmid_of_live (h : k.queue = some (q, ms)) : k.msgctlRmid (some q) = { k with queue := none } := by
  unfold Kernel.msgctlRmid
  rw [h]
  simp

theorem msgsnd_of_live {cap : Nat} {m : Msg D} (h : k.queue = some (q, ms)) :
    k.msgsnd cap (some q) m = if ms.length < cap then some { k with queue := some (q, ms ++ [m]) } else none := by
  unfold Kernel.msgsnd
  rw [h]
  simp

theorem msgrcv_of_live {t : Int} (h : k.queue = some (q, ms)) :
    k.msgrcv (some q) t = (takeType t ms).map fun (m, rest) => ({ k with queue := some (q, rest) }, some m) := by
  unfold Kernel.msgrcv
  rw [h]
  simp

end MsgQueue
