import Mathlib.Data.Multiset.Range
import UnixTasks.ShStack.Exclusion

/-!
# What the shared stack holds

A call reads the count before it takes the mutex and uses it afterwards.  As long as the count is still the value of
semaphore 1 when the mutex is taken, the slots below the count are a ledger: everything pushed, minus everything
popped.  Without this condition two pushes write the same slot.

* (`CountFresh`) the condition on the step that takes the mutex;
* (`contents_of_countFresh`) in every run whose steps meet it no value is lost and none is popped twice;
* (`push_lost`) two pushes in a stack of capacity 2 of which one is lost.
-/

namespace UnixTasks.ShStack

open ActionSystem

variable {P V : Type}

/-! ### What is observed -/

/-- The value of semaphore `n`. -/
def Kernel.semVal (k : Kernel V) (n : Nat) : Int :=
  match k.sem with
  | some set => set.val n
  | none => 0

/-- The values in the slots `0, …, n-1`. -/
def held (slot : Nat → V) (n : Int) : Multiset V := (Multiset.range n.toNat).map slot

/-- The values in the slots below the count. -/
def Kernel.contents (k : Kernel V) : Multiset V :=
  match k.shm with
  | some seg => held seg.slot (k.semVal 1)
  | none => 0

/-- The value that a successful `push` has put in. -/
def Ret.pushed : Ret V → Option V
  | .push val 0 => some val
  | _ => none

/-- The value that a successful `pop` has handed out. -/
def Ret.popped : Ret V → Option V
  | .pop out 0 => out
  | _ => none

def pushed (log : List (P × Ret V)) : Multiset V := ↑(log.filterMap fun e => e.2.pushed)

def popped (log : List (P × Ret V)) : Multiset V := ↑(log.filterMap fun e => e.2.popped)

/-- Every process is attached to one stack of capacity `size` with wait mode -1, no call is in progress and nothing
has been logged yet. -/
structure Ready (size : Int) (s : State P V) : Prop where
  base : ∃ b val slot, s.kernel = Base.kernel b val slot ∧ val 0 = size ∧ 0 ≤ val 1 ∧ val 1 ≤ size ∧ val 2 = 1 ∧
    ∀ p, ∃ stack, (s.proc p).stack = some stack ∧ b.Attached stack ∧ stack.wait = -1
  size_le : size ≤ semvmx
  quiescent : Quiescent s
  log : s.log = []

/-- The calls of an attached process that leave its wait mode alone. -/
def Action.access : Action P V → Prop
  | .call _ (.attach _) | .call _ (.setWait _ _) => False
  | _ => True

/-- The count that a call about to take the mutex has read. -/
def Pc.lockCount : Pc V → Option Int
  | .push _ (.lock count _) | .pop (.lock count _) => some count
  | _ => none

/-- A call that takes the mutex has read the count that semaphore 1 still has. -/
def CountFresh (s : State P V) : Action P V → Prop
  | .call _ _ => True
  | .step p => ∀ count ∈ (s.proc p).pc.lockCount, count = s.kernel.semVal 1

instance (s : State P V) : ∀ a, Decidable (CountFresh s a)
  | .call _ _ => inferInstanceAs (Decidable True)
  | .step p => inferInstanceAs (Decidable (∀ count ∈ (s.proc p).pc.lockCount, count = s.kernel.semVal 1))

/-! ### The ledger -/

private theorem held_succ (slot : Nat → V) {n : Int} (hn : 0 ≤ n) :
    held slot (n + 1) = slot n.toNat ::ₘ held slot n := by
  obtain ⟨m, rfl⟩ := Int.eq_ofNat_of_zero_le hn
  rw [held, show ((m : Int) + 1).toNat = m + 1 by omega, Multiset.range_succ, Multiset.map_cons]
  rfl

private theorem held_pred (slot : Nat → V) {n : Int} (hn : 0 < n) :
    held slot n = slot (n - 1).toNat ::ₘ held slot (n - 1) := by
  have h := held_succ slot (n := n - 1) (by omega)
  rwa [Int.sub_add_cancel] at h

private theorem held_update (slot : Nat → V) {n i : Int} (hi : n ≤ i) (v : V) :
    held (Function.update slot i.toNat v) n = held slot n := by
  refine Multiset.map_congr rfl fun m hm => Function.update_of_ne ?_ _ _
  rw [Multiset.mem_range] at hm
  omega

/-- What the slots and the log have to do with each other when semaphore 1 is `n` and the holder of the mutex is at
the given place. -/
def Ledger (size n : Int) (slot : Nat → V) (start ins outs : Multiset V) : Option (Pc V) → Prop
  | some (.push _ (.write count _)) => count = n ∧ n < size ∧ held slot n + outs = start + ins
  | some (.push v (.incr _)) => n < size ∧ held slot (n + 1) + outs = start + (v ::ₘ ins)
  | some (.push v (.unlock _)) => held slot n + outs = start + (v ::ₘ ins)
  | some (.pop (.read count _)) => count = n ∧ 0 < n ∧ held slot n + outs = start + ins
  | some (.pop (.decr out _)) => 0 < n ∧ slot (n - 1).toNat = out ∧ held slot n + outs = start + ins
  | some (.pop (.unlock out _)) => held slot n + (out ::ₘ outs) = start + ins
  | _ => held slot n + outs = start + ins

/-- What a process has read, at the places before the mutex. -/
def LocalOk (size : Int) : Pc V → Prop
  | .push _ (.count sz) => sz = size
  | .push _ (.spin _ _) | .push _ (.nanosleep _ _) | .push _ (.recount _ _) => False
  | .push _ (.lock count _) => count ≠ size
  | .pop (.spin _) | .pop (.nanosleep _) | .pop (.recount _) => False
  | .pop (.lock count _) => count ≠ 0
  | .setWait _ _ => False
  | _ => True

structure Contents (size : Int) (start : Multiset V) (val : Nat → Int) (slot : Nat → V) (holder : Option P)
    (s : State P V) : Prop where
  wait : ∀ p stack, (s.proc p).stack = some stack → stack.wait = -1
  cap : val 0 = size
  count_le : val 1 ≤ size
  localOk : ∀ p, LocalOk size (s.proc p).pc
  ledger : Ledger size (val 1) slot start (pushed s.log) (popped s.log) (holder.map fun p => (s.proc p).pc)

/-! ### The log -/

private theorem coe_filterMap_append {α β : Type} (f : α → Option β) (l : List α) (x : α) :
    (↑((l ++ [x]).filterMap f) : Multiset β) = ↑(f x).toList + ↑(l.filterMap f) := by
  rw [List.filterMap_append, ← Multiset.coe_add, Multiset.add_comm]
  cases h : f x <;> simp [h]

private theorem pushed_append (log : List (P × Ret V)) (p : P) (r : Ret V) :
    pushed (log ++ [(p, r)]) = ↑r.pushed.toList + pushed log :=
  coe_filterMap_append _ log (p, r)

private theorem popped_append (log : List (P × Ret V)) (p : P) (r : Ret V) :
    popped (log ++ [(p, r)]) = ↑r.popped.toList + popped log :=
  coe_filterMap_append _ log (p, r)

private theorem pushed_popped_of_noTransfer {r : Ret V} (h : r.noTransfer) : r.pushed = none ∧ r.popped = none := by
  cases r with
  | push v ret | pop out ret => simp only [Ret.noTransfer] at h; constructor <;> simp [Ret.pushed, Ret.popped, h]
  | _ => exact ⟨rfl, rfl⟩

/-- Results that move no value leave the books as they are. -/
private theorem books_of_noTransfer (log : List (P × Ret V)) (p : P) {r : Option (Ret V)} (h : ∀ x ∈ r, x.noTransfer) :
    pushed (log ++ (r.map (p, ·)).toList) = pushed log ∧ popped (log ++ (r.map (p, ·)).toList) = popped log := by
  cases r with
  | none => simp
  | some r =>
    obtain ⟨h1, h2⟩ := pushed_popped_of_noTransfer (h r rfl)
    simp [pushed_append, popped_append, h1, h2]

/-! ### One step keeps the ledger -/

theorem InsideStep.ledger {b : Base} {val val' : Nat → Int} {slot slot' : Nat → V} {pc pc' : Pc V}
    {r : Option (Ret V)} {size : Int} {start : Multiset V} (h : InsideStep b val slot pc val' slot' pc' r)
    (hpos : 0 ≤ val 1) (hsize : size ≤ semvmx) (hle : val 1 ≤ size) (log : List (P × Ret V)) (p : P)
    (hl : Ledger size (val 1) slot start (pushed log) (popped log) (some pc)) :
    val' 1 ≤ size ∧ Ledger size (val' 1) slot' start (pushed (log ++ (r.map (p, ·)).toList))
      (popped (log ++ (r.map (p, ·)).toList)) (if pc'.inside then some pc' else none) := by
  cases h with
  | write hseg =>
    obtain ⟨rfl, hlt, hbooks⟩ := hl
    refine ⟨hle, hlt, ?_⟩
    rw [held_succ _ hpos, held_update _ (Int.le_refl _), Function.update_self]
    simpa using hbooks
  | incr hmax =>
    obtain ⟨hlt, hbooks⟩ := hl
    refine ⟨show val 1 + 1 ≤ size by omega, ?_⟩
    simpa [Ledger, Pc.inside] using hbooks
  | incrFull hmax =>
    -- a stack below its capacity is below the largest value of a semaphore
    obtain ⟨hlt, -⟩ := hl
    omega
  | pushUnlock =>
    refine ⟨hle, ?_⟩
    show held slot (val 1) + _ = _
    simpa [pushed_append, popped_append, Ret.pushed, Ret.popped, Ledger] using hl
  | read hseg =>
    obtain ⟨rfl, hlt, hbooks⟩ := hl
    exact ⟨hle, hlt, rfl, by simpa using hbooks⟩
  | decr hpos =>
    obtain ⟨-, rfl, hbooks⟩ := hl
    refine ⟨show val 1 - 1 ≤ size by omega, ?_⟩
    show held slot (val 1 - 1) + _ = _
    rw [held_pred slot hpos] at hbooks
    simpa using hbooks
  | popUnlock =>
    refine ⟨hle, ?_⟩
    show held slot (val 1) + _ = _
    simpa [pushed_append, popped_append, Ret.pushed, Ret.popped, Ledger] using hl
  | printRead hseg =>
    refine ⟨hle, ?_⟩
    rw [printLoop_inside]
    simpa [Ledger] using hl
  | printUnlock =>
    refine ⟨hle, ?_⟩
    simpa [Ledger, Pc.inside, pushed_append, popped_append, Ret.pushed, Ret.popped] using hl

/-- What a process has read when it leaves a look at the semaphores. -/
private theorem look_localOk [Zero V] {b : Base} {val : Nat → Int} {slot : Nat → V} {stack : StackT} {pc : Pc V}
    {k : Kernel V} {q : Proc V} {r : Option (Ret V)} (hst : b.Attached stack) (hwait : stack.wait = -1)
    (hok : PcOk pc) (hlocal : LocalOk (val 0) pc) (hin : pc.inside = false) (hl : pc.atLock = false)
    (hs : Proc.step (b.kernel val slot) ⟨some stack, pc⟩ = some (k, q, r)) :
    q.stack = some stack ∧ LocalOk (val 0) q.pc := by
  obtain ⟨hsem, -⟩ := hst
  cases pc with
  | idle => cases hs
  | attach pc => exact hok.elim
  | setWait w tm => exact hlocal.elim
  | push v pc =>
    cases pc <;> simp only [Pc.inside, Pc.atLock, reduceCtorEq] at hin hl <;> simp only [LocalOk] at hlocal <;>
      simp only [Proc.step, pushStep, pushTest, hwait, hsem, Option.bind_some, Option.map_some, Option.some.injEq]
        at hs
    · cases hs
      exact ⟨rfl, b.getval_kernel val slot (by omega)⟩
    · subst hlocal
      rw [b.getval_kernel val slot (by omega)] at hs
      split at hs <;> cases hs
      · exact ⟨rfl, trivial⟩
      · rename_i hne
        exact ⟨rfl, hne⟩
  | pop pc =>
    cases pc <;> simp only [Pc.inside, Pc.atLock, reduceCtorEq] at hin hl <;> simp only [LocalOk] at hlocal
    simp only [Proc.step, popStep, popTest, hwait, hsem, Option.bind_some, Option.map_some, Option.some.injEq] at hs
    rw [b.getval_kernel val slot (by omega)] at hs
    split at hs <;> cases hs
    · exact ⟨rfl, trivial⟩
    · rename_i hne
      exact ⟨rfl, hne⟩
  | printAll pc =>
    cases pc <;> simp only [Pc.inside, Pc.atLock, reduceCtorEq] at hin hl <;>
      simp only [Proc.step, printStep, Option.bind_some, Option.map_some, Option.some.injEq] at hs <;>
      cases hs <;> exact ⟨rfl, trivial⟩
  | getSize | getCount =>
    simp only [Proc.step, Option.map_some, Option.some.injEq] at hs
    cases hs
    exact ⟨rfl, trivial⟩

theorem InsideStep.localOk {b : Base} {val val' : Nat → Int} {slot slot' : Nat → V} {pc pc' : Pc V}
    {r : Option (Ret V)} {size : Int} (h : InsideStep b val slot pc val' slot' pc' r) : LocalOk size pc' := by
  cases h <;> trivial

theorem InsideStep.cap {b : Base} {val val' : Nat → Int} {slot slot' : Nat → V} {pc pc' : Pc V}
    {r : Option (Ret V)} (h : InsideStep b val slot pc val' slot' pc' r) : val' 0 = val 0 := by
  cases h <;> rfl

/-- Taking the mutex with a fresh count opens the ledger to its new holder. -/
theorem Ledger.locked {size n : Int} {slot : Nat → V} {start ins outs : Multiset V} {pc : Pc V}
    (h : Ledger size n slot start ins outs (none : Option (Pc V))) (hlocal : LocalOk size pc) (hpos : 0 ≤ n)
    (hle : n ≤ size) (hl : pc.atLock = true)
    (hfresh : ∀ count ∈ pc.lockCount, count = n) :
    Ledger size n slot start ins outs (some pc.locked) := by
  cases pc with
  | push v pc =>
    cases pc <;> simp only [Pc.atLock, Bool.false_eq_true] at hl
    have hne : _ ≠ size := hlocal
    have hn := hfresh _ rfl
    exact ⟨hn, by omega, h⟩
  | pop pc =>
    cases pc <;> simp only [Pc.atLock, Bool.false_eq_true] at hl
    have hne : _ ≠ (0 : Int) := hlocal
    have hn := hfresh _ rfl
    exact ⟨hn, by omega, h⟩
  | printAll pc =>
    cases pc <;> simp only [Pc.atLock, Bool.false_eq_true] at hl
    exact h
  | _ => cases hl

private theorem Op.start_localOk {op : Op V} {p : P} (size : Int) (h : (Action.call p op).access) :
    LocalOk size op.start := by
  cases op with
  | setWait w tm => exact h
  | _ => trivial

private theorem Pc.locked_localOk {pc : Pc V} (size : Int) (hl : pc.atLock = true) : LocalOk size pc.locked := by
  cases pc with
  | push v pc | pop pc =>
    cases pc <;> simp only [Pc.atLock, Bool.false_eq_true] at hl
    trivial
  | printAll pc =>
    cases pc <;> simp only [Pc.atLock, Bool.false_eq_true] at hl
    trivial
  | _ => cases hl

private theorem contents_step [Zero V] [DecidableEq P] {b : Base} {val val' : Nat → Int} {slot slot' : Nat → V}
    {holder holder' : Option P} {s t : State P V} {a : Action P V} {size : Int} {start : Multiset V}
    (hex : Exclusive b val slot holder s)
    (h : Contents size start val slot holder s) (hsize : size ≤ semvmx) (ha : a.access) (hfresh : CountFresh s a)
    (hm : Moved b val slot holder s a val' slot' holder' t) : Contents size start val' slot' holder' t := by
  cases hm with
  | @call p op hidle =>
    have hnot : holder ≠ some p := fun hp => by simpa [hidle, Pc.inside] using (hex.inside_iff p).2 hp
    exact { h with
      wait := forall_proc_update (fun q => ∀ stack, q.stack = some stack → stack.wait = -1) h.wait
          (h.wait p)
      localOk := forall_proc_update (fun q => LocalOk size q.pc) h.localOk (Op.start_localOk size ha)
      ledger := by rw [holder_update hnot]; exact h.ledger }
  | @look p q r hin hl hs hr =>
    have hnot : holder ≠ some p := fun hp => by simpa [hin] using (hex.inside_iff p).2 hp
    obtain ⟨stack, hstack, hst⟩ := hex.attached p
    rw [hex.kernel, show s.proc p = ⟨some stack, (s.proc p).pc⟩ by rw [← hstack]] at hs
    have hlocal := h.localOk p
    rw [← h.cap] at hlocal
    obtain ⟨hq, hlocal⟩ := look_localOk hst (h.wait p stack hstack) (hex.pcOk p) hlocal hin hl hs
    obtain ⟨hpush, hpop⟩ := books_of_noTransfer s.log p hr
    exact { h with
      wait := forall_proc_update (fun q => ∀ stack, q.stack = some stack → stack.wait = -1) h.wait
          (fun stack' hs' => h.wait p stack' (by rw [hstack, ← hq, hs']))
      localOk := forall_proc_update (fun q => LocalOk size q.pc) h.localOk (by rwa [← h.cap])
      ledger := by
        show Ledger _ _ _ _ (pushed (s.log ++ _)) (popped (s.log ++ _)) _
        rw [holder_update hnot, hpush, hpop]
        exact h.ledger }
  | @lock p hl hfree =>
    subst hfree
    have hcount : s.kernel.semVal 1 = val 1 := by rw [hex.kernel]; rfl
    exact { h with
      wait := forall_proc_update (fun q => ∀ stack, q.stack = some stack → stack.wait = -1) h.wait
          (h.wait p)
      localOk := forall_proc_update (fun q => LocalOk size q.pc) h.localOk (Pc.locked_localOk size hl)
      ledger := by
        show Ledger size (val 1) slot start (pushed s.log) (popped s.log) (some (Function.update s.proc p _ p).pc)
        rw [Function.update_self]
        refine Ledger.locked h.ledger (h.localOk p) hex.count_nonneg h.count_le hl ?_
        rw [← hcount]
        exact hfresh }
  | @inside p pc r val' slot' hholder hi =>
    subst hholder
    obtain ⟨hle, hledger⟩ := hi.ledger hex.count_nonneg hsize h.count_le s.log p h.ledger
    exact
      { wait := forall_proc_update (fun q => ∀ stack, q.stack = some stack → stack.wait = -1) h.wait
          (h.wait p)
        cap := by rw [hi.cap, h.cap]
        count_le := hle
        localOk := forall_proc_update (fun q => LocalOk size q.pc) h.localOk hi.localOk
        ledger := by
          convert hledger using 1
          split <;> simp }

/-! ### Whole runs -/

/-- Some values, slots and holder explain the state. -/
def Explained (b : Base) (size : Int) (start : Multiset V) (s : State P V) : Prop :=
  ∃ val slot holder, Exclusive b val slot holder s ∧ Contents size start val slot holder s

theorem Ready.explained {size : Int} {s : State P V} (h : Ready size s) :
    ∃ b, Explained b size s.kernel.contents s := by
  obtain ⟨b, val, slot, hk, hcap, h0, hle, hmutex, hproc⟩ := h.base
  have hidle : ∀ p, (s.proc p).pc = .idle := h.quiescent
  refine ⟨b, val, slot, none, ?_, ?_⟩
  · exact
      { kernel := hk
        attached := fun p => by
          obtain ⟨stack, hs, hst, -⟩ := hproc p
          exact ⟨stack, hs, hst⟩
        pcOk := fun p => by rw [hidle p]; trivial
        count_nonneg := h0
        count_le := Int.le_trans hle h.size_le
        mutex := hmutex
        inside_iff := fun p => by simp [hidle p, Pc.inside] }
  · exact
      { wait := fun p stack hs => by
          obtain ⟨stack', hs', -, hw⟩ := hproc p
          rw [hs, Option.some.injEq] at hs'
          rw [hs', hw]
        cap := hcap
        count_le := hle
        localOk := fun p => by rw [hidle p]; trivial
        ledger := by simp [Ledger, h.log, pushed, popped, hk, Kernel.contents, Base.kernel, Kernel.semVal] }

theorem explained_step [Zero V] [DecidableEq P] {b : Base} {size : Int} {start : Multiset V}
    (hsize : size ≤ semvmx) (s : State P V) (a : Action P V) (t : State P V) (h : Explained b size start s)
    (ha : a.access ∧ CountFresh s a) (hs : s.step a = some t) : Explained b size start t := by
  obtain ⟨val, slot, holder, hex, hc⟩ := h
  have hna : a.noAttach := by
    cases a with
    | call p op => cases op <;> first | exact ha.1 | trivial
    | step p => trivial
  obtain ⟨val', slot', holder', hm, hex'⟩ := exclusive_step hex hna hs
  exact ⟨val', slot', holder', hex', contents_step hex hc hsize ha.1 ha.2 hm⟩

/-- Every run whose calls take the mutex with a fresh count: whenever no call is in progress the count is at most the
capacity, and the slots below it hold what was there at the start and what has been pushed, except for what has been
popped. -/
theorem contents_of_countFresh [Zero V] [DecidableEq P] {size : Int} {s₀ s : State P V} {as : List (Action P V)}
    (h₀ : Ready size s₀) (hacc : ∀ a ∈ as, a.access) (hfresh : AllSteps State.step CountFresh s₀ as)
    (hrun : run State.step s₀ as = some s) (hq : Quiescent s) :
    s.kernel.semVal 1 ≤ size ∧ s.kernel.contents + popped s.log = s₀.kernel.contents + pushed s.log := by
  obtain ⟨b, hexp⟩ := h₀.explained
  obtain ⟨val, slot, holder, hex, hc⟩ :=
    run_invariant_of_good (explained_step h₀.size_le) hexp (hfresh.and_of_mem hacc) hrun
  have hfree : holder = none := by
    cases holder with
    | none => rfl
    | some p => simpa [hq p, Pc.inside] using (hex.inside_iff p).2 rfl
  subst hfree
  rw [hex.kernel]
  exact ⟨hc.count_le, hc.ledger⟩

/-! ### Two pushes at once -/

/-- A stack of the given capacity in a segment of one page, empty, with every process attached to it. -/
def emptyStack (P : Type) (size : Int) : State P Nat where
  kernel := ⟨some ⟨1, size, fun _ => 0⟩, some ⟨2, 3, fun n => if n = 0 then size else if n = 2 then 1 else 0⟩, 3, 4⟩
  proc := fun _ => ⟨some ⟨1, -1, 2, 1, ⟨0, 0⟩⟩, .idle⟩
  log := []

theorem emptyStack_ready (P : Type) {size : Int} (h0 : 0 ≤ size) (hsize : size ≤ semvmx) :
    Ready size (emptyStack P size) where
  base := ⟨⟨1, size, 2, 3, 4⟩, _, _, rfl, rfl, Int.le_refl 0, h0, rfl, fun _ => ⟨_, rfl, ⟨rfl, rfl⟩, rfl⟩⟩
  size_le := hsize
  quiescent := fun _ => rfl
  log := rfl

/-- One process pushes, and another one pops after it. -/
theorem contents_of_countFresh_pop_after_push : ∃ s : State Bool Nat,
    run State.step (emptyStack Bool 2) (.call true (.push 7) :: List.replicate 6 (.step true) ++
      .call false .pop :: List.replicate 5 (.step false)) = some s ∧
    s.kernel.semVal 1 ≤ 2 ∧
    s.kernel.contents + popped s.log = (emptyStack Bool 2).kernel.contents + pushed s.log := by
  refine ⟨_, rfl, ?_⟩
  refine @contents_of_countFresh Bool Nat _ _ 2 _ _
    (.call true (.push 7) :: List.replicate 6 (.step true) ++ .call false .pop :: List.replicate 5 (.step false))
    (emptyStack_ready Bool (by omega) (by decide)) ?_ (by decide) rfl (by rintro (_ | _) <;> rfl)
  simp [Action.access]

/-- Two processes read the count 0 before either of them takes the mutex: both write slot 0, the count becomes 2. -/
theorem push_lost : ∃ (as : List (Action Bool Nat)) (s : State Bool Nat), Ready 2 (emptyStack Bool 2) ∧
    (∀ a ∈ as, a.access) ∧ run State.step (emptyStack Bool 2) as = some s ∧ Quiescent s ∧
    s.kernel.contents + popped s.log ≠ (emptyStack Bool 2).kernel.contents + pushed s.log := by
  refine ⟨[.call true (.push 7), .step true, .step true, .call false (.push 8), .step false, .step false,
    .step true, .step true, .step true, .step true, .step false, .step false, .step false, .step false], _,
    emptyStack_ready Bool (by omega) (by decide), ?_, rfl, ?_, ?_⟩
  · simp [Action.access]
  · rintro (_ | _) <;> rfl
  · decide

end UnixTasks.ShStack
