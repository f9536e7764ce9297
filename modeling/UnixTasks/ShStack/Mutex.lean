import Mathlib.Data.Set.Card
import UnixTasks.ShStack.Contents

/-!
# Semaphore 2 is a mutex and semaphore 1 a counter

The results about all runs of attached processes that start at rest.

* (`AtRest`) every process is attached, no call is in progress, the mutex is free;
* (`TouchesNoSlot`) a step is the same whatever the slots hold, and leaves them as they are;
* (`mutual_exclusion`) at every moment at most one process is inside, nobody else touches a slot, and semaphore 1 is
  the number of increments less the number of decrements.
-/

namespace UnixTasks.ShStack

open ActionSystem

variable {P V : Type}

/-- Every process is attached to the stack `b`, no call is in progress and the mutex is free. -/
structure AtRest (b : Base) (val : Nat → Int) (slot : Nat → V) (s : State P V) : Prop where
  kernel : s.kernel = b.kernel val slot
  attached : ∀ p, b.AttachedProc (s.proc p)
  quiescent : Quiescent s
  count_nonneg : 0 ≤ val 1
  count_le : val 1 ≤ semvmx
  mutex : val 2 = 1

theorem AtRest.exclusive {b : Base} {val : Nat → Int} {slot : Nat → V} {s : State P V} (h : AtRest b val slot s) :
    Exclusive b val slot none s where
  kernel := h.kernel
  attached := h.attached
  pcOk := fun p => by rw [h.quiescent p]; trivial
  count_nonneg := h.count_nonneg
  count_le := h.count_le
  mutex := h.mutex
  inside_iff := fun p => by simp [h.quiescent p, Pc.inside]

theorem emptyStack_atRest (P : Type) (size : Int) :
    AtRest ⟨1, size, 2, 3, 4⟩ (fun n => if n = 0 then size else if n = 2 then 1 else 0) (fun _ => 0)
      (emptyStack P size) where
  kernel := rfl
  attached := fun _ => ⟨_, rfl, rfl, rfl⟩
  quiescent := fun _ => rfl
  count_nonneg := Int.le_refl 0
  count_le := show (0 : Int) ≤ semvmx by decide
  mutex := rfl

theorem Exclusive.semVal {b : Base} {val : Nat → Int} {slot : Nat → V} {holder : Option P} {s : State P V}
    (h : Exclusive b val slot holder s) (n : Nat) : s.kernel.semVal n = val n := by
  rw [h.kernel]
  rfl

/-! ### The processes inside -/

/-- The processes between their acquiring and their releasing `semop` on semaphore 2. -/
def insiders (s : State P V) : Set P := {p | (s.proc p).pc.inside = true}

/-- The process inside, if there is one, is the holder of the mutex. -/
theorem Exclusive.insiders_eq {b : Base} {val : Nat → Int} {slot : Nat → V} {holder : Option P} {s : State P V}
    (h : Exclusive b val slot holder s) : insiders s = {p | holder = some p} :=
  Set.ext h.inside_iff

private theorem Exclusive.mutex_add_ncard {b : Base} {val : Nat → Int} {slot : Nat → V} {holder : Option P}
    {s : State P V} (h : Exclusive b val slot holder s) :
    (insiders s).Finite ∧ s.kernel.semVal 2 + (insiders s).ncard = 1 := by
  rw [h.insiders_eq, h.semVal 2, h.mutex]
  cases holder with
  | none => simp
  | some p =>
    have hone : {p' | some p = some p'} = {p} := Set.ext fun p' => by simp [eq_comm]
    rw [hone, Set.ncard_singleton]
    exact ⟨Set.finite_singleton p, rfl⟩

/-! ### Who touches a slot -/

/-- The kernel with other values in the slots. -/
def Kernel.withSlots (k : Kernel V) (slot : Nat → V) : Kernel V :=
  { k with shm := k.shm.map fun seg => { seg with slot := slot } }

/-- The next step of `p` neither reads nor writes a slot: it is the same step whatever the slots hold, and leaves
them as they are. -/
def TouchesNoSlot [Zero V] (s : State P V) (p : P) : Prop :=
  ∀ slot, (s.proc p).step (s.kernel.withSlots slot) =
    ((s.proc p).step s.kernel).map fun (k, q, r) => (k.withSlots slot, q, r)

@[simp] theorem Kernel.getval_withSlots (k : Kernel V) (slot : Nat → V) (id : Int) (n : Nat) :
    (k.withSlots slot).getval id n = k.getval id n := rfl

@[simp] theorem Kernel.semop_withSlots (k : Kernel V) (slot : Nat → V) (id : Int) (buf : SemBuf) :
    (k.withSlots slot).semop id buf = (k.semop id buf).map fun k => k.withSlots slot := by
  have hset : (k.withSlots slot).semSet id buf.semNum = k.semSet id buf.semNum := rfl
  unfold Kernel.semop
  rw [hset]
  cases k.semSet id buf.semNum with
  | none => rfl
  | some set =>
    simp only
    split <;> split <;> try rfl
    split <;> rfl

/-- Outside the mutex a call only looks at semaphores, and takes semaphore 2. -/
private theorem step_withSlots [Zero V] {q : Proc V} (hok : PcOk q.pc) (hin : q.pc.inside = false) (k : Kernel V)
    (slot : Nat → V) :
    q.step (k.withSlots slot) = (q.step k).map fun (k, q, r) => (k.withSlots slot, q, r) := by
  obtain ⟨stack, pc⟩ := q
  cases stack with
  | none =>
    cases pc with
    | attach pc => exact hok.elim
    | _ => rfl
  | some stack =>
    cases pc with
    | idle => rfl
    | attach pc => exact hok.elim
    | push v pc =>
      cases pc with
      | lock count buf => simp [Proc.step, pushStep, Option.map_map, Function.comp_def]
      | write | incr | unlock => cases hin
      | _ => rfl
    | pop pc =>
      cases pc with
      | lock count buf => simp [Proc.step, popStep, Option.map_map, Function.comp_def]
      | read | decr | unlock => cases hin
      | _ => rfl
    | printAll pc =>
      cases pc with
      | lock count buf => simp [Proc.step, printStep, Option.map_map, Function.comp_def]
      | read | unlock => cases hin
      | _ => rfl
    | getSize | getCount | setWait w tm => rfl

/-! ### The counter -/

/-- At the `semop` of `push` on semaphore 1. -/
def Pc.atIncr : Pc V → Bool
  | .push _ (.incr _) => true
  | _ => false

/-- At the `semop` of `pop` on semaphore 1. -/
def Pc.atDecr : Pc V → Bool
  | .pop (.decr _ _) => true
  | _ => false

/-- The step adds 1 to semaphore 1.  The `semop` of `push` fails, and adds nothing, when the semaphore has its largest
value. -/
def Increments (s : State P V) : Action P V → Bool
  | .step p => (s.proc p).pc.atIncr && s.kernel.semVal 1 < semvmx
  | .call _ _ => false

/-- The step takes 1 from semaphore 1. -/
def Decrements (s : State P V) : Action P V → Bool
  | .step p => (s.proc p).pc.atDecr
  | .call _ _ => false

/-- Both places are inside. -/
theorem Pc.not_atCount_of_outside {pc : Pc V} (hin : pc.inside = false) : pc.atIncr = false ∧ pc.atDecr = false := by
  cases pc with
  | push v pc =>
    cases pc with
    | incr buf => cases hin
    | _ => exact ⟨rfl, rfl⟩
  | pop pc =>
    cases pc with
    | decr out buf => cases hin
    | _ => exact ⟨rfl, rfl⟩
  | _ => exact ⟨rfl, rfl⟩

private theorem InsideStep.count_eq {b : Base} {val val' : Nat → Int} {slot slot' : Nat → V} {pc pc' : Pc V}
    {r : Option (Ret V)} (h : InsideStep b val slot pc val' slot' pc' r) :
    val' 1 = val 1 + (if pc.atIncr && val 1 < semvmx then 1 else 0) - (if pc.atDecr then 1 else 0) := by
  cases h with
  | incr hmax =>
    have hlt : val 1 < semvmx := by omega
    simp [Pc.atIncr, Pc.atDecr, hlt]
  | incrFull hmax =>
    have hlt : ¬ val 1 < semvmx := by omega
    simp [Pc.atIncr, Pc.atDecr, hlt]
  | _ => simp [Pc.atIncr, Pc.atDecr]

/-- What one step does to semaphore 1. -/
theorem count_step [Zero V] [DecidableEq P] {b : Base} {val val' : Nat → Int} {slot slot' : Nat → V}
    {holder holder' : Option P} {s t : State P V} {a : Action P V} (h : Exclusive b val slot holder s)
    (hm : Moved b val slot holder s a val' slot' holder' t) :
    val' 1 = val 1 + (if Increments s a then 1 else 0) - (if Decrements s a then 1 else 0) := by
  have hval := h.semVal 1
  cases hm with
  | call hidle => simp [Increments, Decrements]
  | look hin hl hs hr =>
    obtain ⟨hi, hd⟩ := Pc.not_atCount_of_outside hin
    simp [Increments, Decrements, hi, hd]
  | lock hl hfree =>
    obtain ⟨hi, hd⟩ := Pc.not_atCount_of_outside (Pc.inside_of_atLock hl)
    simp [Increments, Decrements, hi, hd]
  | @inside p pc r val' slot' hholder hi =>
    rw [hi.count_eq, ← hval]
    rfl

/-! ### Whole runs -/

section Runs

variable [Zero V] [DecidableEq P] {b : Base} {val : Nat → Int} {slot : Nat → V} {s₀ s : State P V}
  {as : List (Action P V)}

/-- Some values, slots and holder explain the semaphores. -/
def Base.Excluded (b : Base) (s : State P V) : Prop := ∃ val slot holder, Exclusive b val slot holder s

theorem excluded_step (s : State P V) (a : Action P V) (t : State P V) (h : b.Excluded s) (ha : a.noAttach)
    (hs : s.step a = some t) : b.Excluded t := by
  obtain ⟨val, slot, holder, hex⟩ := h
  obtain ⟨val', slot', holder', -, hex'⟩ := exclusive_step hex ha hs
  exact ⟨val', slot', holder', hex'⟩

/-- In every state that attached processes reach from rest by any calls other than an attach: semaphore 2 and the
number of processes inside add up to 1, the others touch no slot, and semaphore 1 counts the increments of `push` and
the decrements of `pop` and is never negative. -/
theorem mutual_exclusion (h₀ : AtRest b val slot s₀) (hcalls : ∀ a ∈ as, a.noAttach)
    (hrun : run State.step s₀ as = some s) :
    ((insiders s).Finite ∧ s.kernel.semVal 2 + (insiders s).ncard = 1) ∧
      (∀ p, p ∉ insiders s → TouchesNoSlot s p) ∧
      s.kernel.semVal 1 = s₀.kernel.semVal 1 + countSteps State.step Increments s₀ as -
        countSteps State.step Decrements s₀ as ∧
      0 ≤ s.kernel.semVal 1 := by
  have hgood : AllSteps State.step (fun _ a => a.noAttach) s₀ as := .of_mem hcalls
  have hex₀ : b.Excluded s₀ := ⟨val, slot, none, h₀.exclusive⟩
  obtain ⟨val', slot', holder', hex⟩ := run_invariant_of_good excluded_step hex₀ hgood hrun
  have hstep : ∀ (s : State P V) (a : Action P V) (t : State P V), b.Excluded s → a.noAttach → s.step a = some t →
      b.Excluded t ∧ t.kernel.semVal 1 =
        s.kernel.semVal 1 + (if Increments s a then 1 else 0) - (if Decrements s a then 1 else 0) := by
    intro s a t h ha hs
    obtain ⟨v, sl, hd, hx⟩ := h
    obtain ⟨v', sl', hd', hm, hx'⟩ := exclusive_step hx ha hs
    refine ⟨⟨v', sl', hd', hx'⟩, ?_⟩
    rw [hx.semVal, hx'.semVal]
    exact count_step hx hm
  have hcount := run_balance hstep hex₀ hgood hrun
  refine ⟨hex.mutex_add_ncard, ?_, hcount, ?_⟩
  · intro p hp
    have hin : (s.proc p).pc.inside = false := Bool.eq_false_iff.2 hp
    exact step_withSlots (hex.pcOk p) hin s.kernel
  · rw [hex.semVal]
    exact hex.count_nonneg

/-- One process has raised semaphore 1 and is still inside. -/
theorem mutual_exclusion_push : ∃ s : State Bool Nat,
    run State.step (emptyStack Bool 2) (.call true (.push 7) :: List.replicate 5 (.step true)) = some s ∧
    ((insiders s).Finite ∧ s.kernel.semVal 2 + (insiders s).ncard = 1) ∧
    (∀ p, p ∉ insiders s → TouchesNoSlot s p) ∧
    s.kernel.semVal 1 = (emptyStack Bool 2).kernel.semVal 1 +
      countSteps State.step Increments (emptyStack Bool 2)
        (.call true (.push 7) :: List.replicate 5 (.step true)) -
      countSteps State.step Decrements (emptyStack Bool 2)
        (.call true (.push 7) :: List.replicate 5 (.step true)) ∧
    0 ≤ s.kernel.semVal 1 := by
  refine ⟨_, rfl, mutual_exclusion (emptyStack_atRest Bool 2) ?_ rfl⟩
  simp [Action.noAttach]

end Runs

end UnixTasks.ShStack
