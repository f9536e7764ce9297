import UnixTasks.ShStack.Sequential

/-!
# detach_stack, mark_destruct and the stacks that follow one another under a key

`mark_destruct` takes the segment from the key and marks it; the kernel destroys it with the last detach.  The
semaphores go at once.  The next `attach_stack` makes a new stack with new identifiers.  Calls do not overlap here.

* (`World`) the kernel with the mappings of every segment and with the marked segments;
* (`Generations`) what a user may think: the stacks under the key one after another, the pointers each with its stack;
* (`finish_stack`) a call keeps the pointer that it is made through;
* (`finish_gone`) what a call on a destroyed stack does.
-/

namespace UnixTasks.ShStack

open ActionSystem

variable {P V : Type}

/-! ### The functions of stack.c -/

/-- The result of a call. -/
inductive LifeRet (V : Type) where
  | call (r : Ret V)
  | detach (ret : Int)
  | destruct (ret : Int)
  deriving DecidableEq, Repr

/-- The calls of a process, now with those that give the stack up. -/
inductive Use (V : Type) where
  | call (op : Op V)
  | detach
  | destruct
  deriving DecidableEq, Repr

/-- All processes and the kernel: `nattch` counts the mappings of each segment, `dest` are the segments that have lost
their key and are still mapped.  Their slots are not kept: without the semaphores a push does not come to its slot, and
a pop reads before the segment. -/
structure World (P V : Type) where
  kernel : Kernel V
  proc : P → Proc V
  nattch : Int → Nat
  dest : List Int
  log : List (P × LifeRet V)

/-- A segment exists under the key or as a marked one. -/
def World.Exists (w : World P V) (id : Int) : Prop := (∃ seg, w.kernel.shm = some seg ∧ seg.id = id) ∨ id ∈ w.dest

/-- `shmdt(addr)`: the last detach destroys a marked segment. -/
def World.shmdt (w : World P V) (addr : Int) : World P V × Int :=
  if w.nattch addr = 0 then (w, -1)
  else ({ w with
      nattch := Function.update w.nattch addr (w.nattch addr - 1)
      dest := if w.nattch addr = 1 then w.dest.erase addr else w.dest }, 0)

/-- `shmctl(id, IPC_RMID, 0)`: the key is free at once; the segment stays while it is mapped. -/
def World.shmRmid (w : World P V) (id : Int) : World P V × Int :=
  match w.kernel.shm with
  | some seg =>
    if seg.id = id then
      ({ w with
        kernel := { w.kernel with shm := none, shmId := w.kernel.shmId + 1 }
        dest := if w.nattch id = 0 then w.dest else id :: w.dest }, 0)
    else (w, if id ∈ w.dest then 0 else -1)
  | none => (w, if id ∈ w.dest then 0 else -1)

/-- `semctl(id, 0, IPC_RMID)`. -/
def World.semRmid (w : World P V) (id : Int) : World P V :=
  match w.kernel.sem with
  | some set =>
    if set.id = id then { w with kernel := { w.kernel with sem := none, semId := w.kernel.semId + 1 } } else w
  | none => w

section Calls

variable [DecidableEq P]

/-- `detach_stack`. -/
def World.detachStack (w : World P V) (p : P) : Option (World P V) :=
  (w.proc p).stack.map fun stack =>
    let (w, ret) := w.shmdt stack.shStack
    -- `free(stack)` makes the pointer invalid
    { w with proc := Function.update w.proc p ⟨none, .idle⟩, log := w.log ++ [(p, .detach ret)] }

/-- `mark_destruct`. -/
def World.markDestruct (w : World P V) (p : P) : Option (World P V) :=
  (w.proc p).stack.map fun stack =>
    let (w, _) := w.shmdt stack.shStack
    let (w, ret) := w.shmRmid stack.idKey
    let w := w.semRmid stack.sem
    { w with proc := Function.update w.proc p ⟨none, .idle⟩, log := w.log ++ [(p, .destruct ret)] }

/-- One of the calls that leave the pointer valid; a successful attach maps the segment. -/
def World.callAlone [Zero V] (fuel : Nat) (w : World P V) (p : P) (op : Op V) : Option (World P V) :=
  (State.callAlone fuel ⟨w.kernel, w.proc, []⟩ (p, op)).map fun t =>
    { w with
      kernel := t.kernel
      proc := t.proc
      nattch :=
        match op, (t.proc p).stack with
        | .attach _, some stack => Function.update w.nattch stack.shStack (w.nattch stack.shStack + 1)
        | _, _ => w.nattch
      log := w.log ++ t.log.map fun e => (e.1, .call e.2) }

/-- A process outside all calls makes one. -/
def World.use [Zero V] (fuel : Nat) (w : World P V) : P × Use V → Option (World P V)
  | (p, .call op) => w.callAlone fuel p op
  | (p, .detach) => w.detachStack p
  | (p, .destruct) => w.markDestruct p

/-- No stack has been made yet. -/
def noWorld (P V : Type) (shmId semId : Int) : World P V :=
  ⟨⟨none, none, shmId, semId⟩, fun _ => ⟨none, .idle⟩, fun _ => 0, [], []⟩

/-! ### Generations of stacks -/

/-- `gen` stacks have been destroyed, `cur` is the one under the key, and `att` are the processes that hold a pointer,
each with the number of its stack. -/
structure Generations (P V : Type) where
  gen : Nat
  cur : Option (Lifo V)
  att : List (P × Nat)

/-- What a call returns on a stack that has been destroyed. -/
def staleRet : Op V → Ret V
  | .attach _ => .attach true
  | .push v => .push v (-1)
  | .pop => .pop none (-1)
  | .printAll => .printAll 0
  | .getSize => .getSize (-1)
  | .getCount => .getCount (-1)
  | .setWait _ _ => .setWait 0

/-- The pointers of the others. -/
def Generations.without (g : Generations P V) (p : P) : List (P × Nat) := g.att.filter fun e => e.1 ≠ p

/-- Somebody else holds a pointer to the stack that `p` holds one to. -/
def Generations.shared (g : Generations P V) (p : P) : Bool :=
  g.att.any fun e => e.1 = p && (g.without p).any fun e' => e'.2 = e.2

/-- The generations after a call, and its result. -/
def Generations.answer (g : Generations P V) (p : P) : Use V → Generations P V × LifeRet V
  | .call (.attach size) =>
    ({ g with cur := some (g.cur.getD (Lifo.empty V size.toNat)), att := (p, g.gen) :: g.att }, .call (.attach true))
  | .call op =>
    match g.cur with
    | some l =>
      if (p, g.gen) ∈ g.att then ({ g with cur := some (ShStack.answer l op).1 }, .call (ShStack.answer l op).2)
      else (g, .call (staleRet op))
    | none => (g, .call (staleRet op))
  | .detach => ({ g with att := g.without p }, .detach 0)
  | .destruct =>
    if (p, g.gen) ∈ g.att then (⟨g.gen + 1, none, g.without p⟩, .destruct 0)
    else ({ g with att := g.without p }, .destruct (if g.shared p then 0 else -1))

def Generations.answers : Generations P V → List (P × Use V) → List (P × LifeRet V)
  | _, [] => []
  | g, (p, u) :: uses => (p, (g.answer p u).2) :: (g.answer p u).1.answers uses

def Generations.after (g : Generations P V) (uses : List (P × Use V)) : Generations P V :=
  uses.foldl (fun g c => (g.answer c.1 c.2).1) g

/-- A process holds a pointer. -/
def Generations.Holds (g : Generations P V) (p : P) : Prop := ∃ n, (p, n) ∈ g.att

/-- A call that keeps to the contract of stack.h: all but an attach need a pointer, an attach is made without one and
asks for no more than there is, and nobody pops from a stack that has been destroyed (that reads before the segment). -/
def Generations.UseOk (g : Generations P V) (p : P) : Use V → Prop
  | .call (.attach size) => ¬ g.Holds p ∧
    match g.cur with
    | some l => 0 ≤ size ∧ size ≤ l.cap
    | none => 1 ≤ size ∧ size ≤ semvmx ∧ InSegment size (size - 1)
  | .call .pop => (p, g.gen) ∈ g.att
  | .call .printAll => False
  | .call (.setWait w _) => g.Holds p ∧ (w = -1 ∨ w = 1)
  | _ => g.Holds p

def Generations.UsesOk : Generations P V → List (P × Use V) → Prop
  | _, [] => True
  | g, (p, u) :: uses => g.UseOk p u ∧ (g.answer p u).1.UsesOk uses

/-! ### Lists of pointers -/

theorem mem_without {g : Generations P V} {p q : P} {n : Nat} : (q, n) ∈ g.without p ↔ (q, n) ∈ g.att ∧ q ≠ p := by
  simp [Generations.without]

theorem without_perm {g : Generations P V} {p : P} {n : Nat} (hnodup : (g.att.map Prod.fst).Nodup)
    (hp : (p, n) ∈ g.att) : g.att.Perm ((p, n) :: g.without p) := by
  unfold Generations.without
  generalize g.att = att at hnodup hp
  induction att with
  | nil => cases hp
  | cons e att ih =>
    rw [List.map_cons, List.nodup_cons] at hnodup
    obtain ⟨hnot, hnodup⟩ := hnodup
    rcases List.mem_cons.1 hp with rfl | hp
    · -- nobody else is `p`
      have hrest : att.filter (fun e => e.1 ≠ p) = att :=
        List.filter_eq_self.2 fun e he => decide_eq_true fun h => hnot (List.mem_map.2 ⟨e, he, h⟩)
      rw [List.filter_cons_of_neg (by simp), hrest]
    · have hne : e.1 ≠ p := fun h => hnot (h ▸ List.mem_map_of_mem hp)
      rw [List.filter_cons_of_pos (by simpa using hne)]
      exact ((ih hnodup hp).cons e).trans (.swap ..)

theorem unique_pointer {g : Generations P V} {p : P} {n m : Nat} (hnodup : (g.att.map Prod.fst).Nodup)
    (hn : (p, n) ∈ g.att) (hm : (p, m) ∈ g.att) : m = n := by
  rcases List.mem_cons.1 ((without_perm hnodup hn).mem_iff.1 hm) with h | h
  · exact (Prod.mk.inj h).2
  · exact absurd rfl (mem_without.1 h).2

theorem nodup_without {g : Generations P V} (p : P) (hnodup : (g.att.map Prod.fst).Nodup) :
    ((g.without p).map Prod.fst).Nodup :=
  hnodup.sublist (List.filter_sublist.map _)

theorem shared_iff {g : Generations P V} {p : P} {n : Nat} (hnodup : (g.att.map Prod.fst).Nodup)
    (hp : (p, n) ∈ g.att) : g.shared p = true ↔ ∃ q, (q, n) ∈ g.without p := by
  simp only [Generations.shared, List.any_eq_true, Bool.and_eq_true, decide_eq_true_eq]
  constructor
  · rintro ⟨⟨q, m⟩, hq, rfl, ⟨q', m'⟩, hq', rfl⟩
    obtain rfl := unique_pointer hnodup hp hq
    exact ⟨q', hq'⟩
  · rintro ⟨q, hq⟩
    exact ⟨(p, n), hp, rfl, (q, n), hq, rfl⟩

end Calls

/-! ### A pointer is kept -/

/-- The process is in a call that leaves its pointer, and what it points to, as they are. -/
def Pc.keepsStack : Pc V → Bool
  | .attach _ | .setWait _ _ => false
  | _ => true

private theorem Next.resume_stack {Place : Type} (q : Proc V) (place : Place → Pc V)
    (hplace : ∀ x, (place x).keepsStack = true) (next : Next V Place) :
    (next.resume q place).1.stack = q.stack ∧ (next.resume q place).1.pc.keepsStack = true := by
  cases next with
  | goto pc => exact ⟨rfl, hplace pc⟩
  | ret r => exact ⟨rfl, rfl⟩

section Ids

variable [Zero V] {k k' : Kernel V} {q q' : Proc V}

private theorem step_stack {r : Option (Ret V)} (hkeeps : q.pc.keepsStack = true) (hs : q.step k = some (k', q', r)) :
    q'.stack = q.stack ∧ q'.pc.keepsStack = true := by
  cases hq : q.pc with
  | idle => rw [Proc.step, hq] at hs; cases hs
  | attach pc => rw [hq] at hkeeps; cases hkeeps
  | setWait w tm => rw [hq] at hkeeps; cases hkeeps
  | push v pc =>
    simp only [Proc.step, hq, Option.bind_eq_some_iff, Option.map_eq_some_iff] at hs
    obtain ⟨stack, -, ⟨k₁, next⟩, -, heq⟩ := hs
    obtain ⟨-, hnext⟩ := Prod.mk.inj heq
    have hstack := Next.resume_stack q (.push v) (fun _ => rfl) next
    rwa [hnext] at hstack
  | pop pc =>
    simp only [Proc.step, hq, Option.bind_eq_some_iff, Option.map_eq_some_iff] at hs
    obtain ⟨stack, -, ⟨k₁, next⟩, -, heq⟩ := hs
    obtain ⟨-, hnext⟩ := Prod.mk.inj heq
    have hstack := Next.resume_stack q .pop (fun _ => rfl) next
    rwa [hnext] at hstack
  | printAll pc =>
    simp only [Proc.step, hq, Option.bind_eq_some_iff, Option.map_eq_some_iff] at hs
    obtain ⟨stack, -, ⟨k₁, next⟩, -, heq⟩ := hs
    obtain ⟨-, hnext⟩ := Prod.mk.inj heq
    have hstack := Next.resume_stack q .printAll (fun _ => rfl) next
    rwa [hnext] at hstack
  | getSize | getCount =>
    simp only [Proc.step, hq, Option.map_eq_some_iff] at hs
    obtain ⟨stack, -, heq⟩ := hs
    cases heq
    exact ⟨rfl, rfl⟩

theorem finish_stack {fuel : Nat} {r : Ret V} (hkeeps : q.pc.keepsStack = true)
    (hs : q.finish fuel k = some (k', q', r)) : q'.stack = q.stack := by
  induction fuel generalizing k q with
  | zero => cases hs
  | succ fuel ih =>
    rw [Proc.finish] at hs
    split at hs
    · cases hs
    · rename_i hstep
      cases hs
      exact (step_stack hkeeps hstep).1
    · rename_i k₁ q₁ hstep
      obtain ⟨hstack, hkeeps'⟩ := step_stack hkeeps hstep
      rw [ih hkeeps' hs, hstack]

/-- `set_wait` writes to what the pointer points to. -/
theorem finish_setWait {fuel : Nat} {val : Int} {timeout : Timespec} {stack : Option StackT} {r : Ret V}
    (hs : Proc.finish fuel k ⟨stack, .setWait val timeout⟩ = some (k', q', r)) :
    q'.stack = stack.map fun stack =>
      { stack with wait := val, timeout := if val = 1 then timeout else stack.timeout } := by
  cases fuel with
  | zero => cases hs
  | succ fuel =>
    cases stack with
    | none => cases hs
    | some stack =>
      cases hs
      rfl

/-- Only an attach changes the identifiers that a process holds. -/
theorem finish_ids {fuel : Nat} {op : Op V} {stack : Option StackT} {r : Ret V} (hna : ∀ size, op ≠ .attach size)
    (hs : Proc.finish fuel k ⟨stack, op.start⟩ = some (k', q', r)) :
    q'.stack.map StackT.idKey = stack.map StackT.idKey := by
  cases op with
  | attach size => exact absurd rfl (hna size)
  | setWait val timeout =>
    rw [finish_setWait hs]
    cases stack with
    | none => rfl
    | some stack => rfl
  | push | pop | printAll | getSize | getCount => rw [finish_stack (q := ⟨stack, _⟩) rfl hs]

/-- A call as a step of the world. -/
theorem callAlone_eq_some [DecidableEq P] {w w' : World P V} {p : P} {op : Op V} {fuel : Nat}
    (h : w.callAlone fuel p op = some w') :
    ∃ q r, Proc.finish fuel w.kernel ⟨(w.proc p).stack, op.start⟩ = some (w'.kernel, q, r) ∧ w'.proc p = q := by
  obtain ⟨t, ht, rfl⟩ := Option.map_eq_some_iff.1 h
  rw [State.callAlone] at ht
  split at ht
  · obtain ⟨⟨k', q, r⟩, hfin, rfl⟩ := Option.map_eq_some_iff.1 ht
    exact ⟨q, r, hfin, Function.update_self ..⟩
  · cases ht

/-! ### Calls on a stack that is gone -/

/-- No semaphore answers to this pointer. -/
def Gone (k : Kernel V) (stack : StackT) : Prop := ∀ n, k.semSet stack.sem n = none

omit [Zero V] in
theorem Gone.getval {stack : StackT} (h : Gone k stack) (n : Nat) : k.getval stack.sem n = -1 := by
  rw [Kernel.getval, h n]

/-- What a call on a destroyed stack does: it returns at once, or after its wait. -/
theorem finish_gone {stack : StackT} {op : Op V} (h : Gone k stack) (hwait : stack.wait = -1 ∨ stack.wait = 1)
    (hop : (∀ size, op ≠ .attach size) ∧ op ≠ .pop ∧ op ≠ .printAll)
    (hset : ∀ w tm, op = .setWait w tm → w = -1 ∨ w = 1) (fuel : Nat) :
    ∃ stack', Proc.finish (fuel + 4) k ⟨some stack, op.start⟩ = some (k, ⟨some stack', .idle⟩, staleRet op) ∧
      stack'.idKey = stack.idKey ∧ stack'.shStack = stack.shStack ∧ stack'.sem = stack.sem ∧
      (stack'.wait = -1 ∨ stack'.wait = 1) := by
  cases op with
  | attach size => exact absurd rfl (hop.1 size)
  | pop => exact absurd rfl hop.2.1
  | printAll => exact absurd rfl hop.2.2
  | push v =>
    refine ⟨stack, ?_, rfl, rfl, rfl, hwait⟩
    have hsize : Proc.step k ⟨some stack, .push v .size⟩ =
        some (k, ⟨some stack, .push v (.count (-1))⟩, none) := by
      simp [Proc.step, pushStep, Next.resume, h.getval]
    rw [Op.start, Proc.finish_goto hsize]
    rcases hwait with hwait | hwait
    · exact Proc.finish_ret (by simp [Proc.step, pushStep, pushTest, Next.resume, h.getval, hwait, staleRet])
    · have htest : Proc.step k ⟨some stack, .push v (.count (-1))⟩ =
          some (k, ⟨some stack, .push v (.nanosleep (-1) lockBuf)⟩, none) := by
        simp [Proc.step, pushStep, pushTest, Next.resume, h.getval, hwait]
      have hsleep : Proc.step k ⟨some stack, .push v (.nanosleep (-1) lockBuf)⟩ =
          some (k, ⟨some stack, .push v (.recount (-1) lockBuf)⟩, none) := rfl
      rw [Proc.finish_goto htest, Proc.finish_goto hsleep]
      exact Proc.finish_ret (by simp [Proc.step, pushStep, Next.resume, h.getval, staleRet])
  | getSize | getCount =>
    exact ⟨stack, Proc.finish_ret (by simp [Op.start, Proc.step, h.getval, staleRet]), rfl, rfl, rfl, hwait⟩
  | setWait w tm =>
    refine ⟨{ stack with wait := w, timeout := if w = 1 then tm else stack.timeout }, Proc.finish_ret rfl, rfl, rfl,
      rfl, ?_⟩
    exact hset w tm rfl

end Ids

end UnixTasks.ShStack
