import Mathlib.Algebra.BigOperators.Group.Finset.Basic
import Mathlib.Algebra.Order.BigOperators.Group.Finset
import UnixTasks.ShStack.Mutex
import UnixTasks.ShStack.Slots

/-!
# test.c

The processes that test.c forks push ten values each and then pop ten, all at the same time.  They read the count before
they take the mutex, so they may overwrite each other's values.  But semaphore 1 is a counter whatever the slots hold,
and every process pops only as often as it has pushed: nobody finds the stack full or empty, so nobody is refused in
wait mode -1, nobody waits in any other, and the mutex goes round until all calls have returned.

The processes are attached and the stack is empty; the signals of the first process and the end of the test are left
out.

* (`Workers.step`) a process makes the calls of its program one after the other;
* (`Calm`) semaphore 1 is what the processes still have to pop more than to push;
* (`calm_step`, `calm_moves`) every step keeps this, and somebody can always take one;
* (`stress_test`) every run.
-/

namespace UnixTasks.ShStack

open ActionSystem

variable {P V : Type}

/-! ### The programs -/

/-- What one process of test.c calls. -/
def worker (m : Nat) (v : V) : List (Op V) := List.replicate m (.push v) ++ List.replicate m .pop

/-- The processes, and the calls that they have not begun. -/
structure Workers (P V : Type) where
  state : State P V
  todo : P → List (Op V)

/-- A process takes the next step of its call, or begins the next call of its program. -/
def Workers.step [Zero V] [DecidableEq P] (w : Workers P V) (p : P) : Option (Workers P V) :=
  match (w.state.proc p).pc, w.todo p with
  | .idle, [] => none
  | .idle, op :: ops => (w.state.step (.call p op)).map fun s => ⟨s, Function.update w.todo p ops⟩
  | _, _ => (w.state.step (.step p)).map fun s => { w with state := s }

/-- A call that has been carried out. -/
def Ret.Granted : Ret V → Prop
  | .push _ ret => ret = 0
  | .pop out ret => out.isSome ∧ ret = 0
  | _ => False

/-! ### What is still to be done -/

def Op.isPush : Op V → Bool
  | .push _ => true
  | _ => false

def Op.isPop : Op V → Bool
  | .pop => true
  | _ => false

/-- How much more often a program pops than it pushes. -/
def balance (ops : List (Op V)) : Int := ops.countP Op.isPop - ops.countP Op.isPush

/-- A program that pushes and pops, and from nowhere on pushes more than it pops, or pops over `m` more. -/
def Fair (m : Nat) : List (Op V) → Prop
  | [] => True
  | op :: ops => (op.isPush = true ∨ op = .pop) ∧ 0 ≤ balance (op :: ops) ∧ balance (op :: ops) ≤ m ∧ Fair m ops

private theorem balance_nil : balance ([] : List (Op V)) = 0 := rfl

private theorem balance_push (v : V) (ops : List (Op V)) : balance (.push v :: ops) = balance ops - 1 := by
  have hpush : (Op.push v :: ops).countP Op.isPush = ops.countP Op.isPush + 1 := List.countP_cons_of_pos rfl
  have hpop : (Op.push v :: ops).countP Op.isPop = ops.countP Op.isPop := List.countP_cons_of_neg Bool.false_ne_true
  rw [balance, balance, hpush, hpop]
  omega

private theorem balance_pop (ops : List (Op V)) : balance (.pop :: ops) = balance ops + 1 := by
  have hpush : (Op.pop :: ops).countP Op.isPush = ops.countP Op.isPush := List.countP_cons_of_neg Bool.false_ne_true
  have hpop : (Op.pop :: ops).countP Op.isPop = ops.countP Op.isPop + 1 := List.countP_cons_of_pos rfl
  rw [balance, balance, hpush, hpop]
  omega

private theorem balance_cons (op : Op V) (ops : List (Op V)) : balance (op :: ops) = balance [op] + balance ops := by
  rw [← List.singleton_append, balance, balance, balance, List.countP_append, List.countP_append]
  omega

theorem Fair.bounds {m : Nat} {ops : List (Op V)} (h : Fair m ops) : 0 ≤ balance ops ∧ balance ops ≤ m := by
  cases ops with
  | nil => exact ⟨Int.le_refl _, by rw [balance_nil]; omega⟩
  | cons op ops => exact ⟨h.2.1, h.2.2.1⟩

private theorem balance_replicate_pop (j : Nat) : balance (List.replicate j (.pop : Op V)) = j := by
  induction j with
  | zero => rfl
  | succ j ih =>
    rw [List.replicate_succ, balance_pop, ih]
    omega

private theorem balance_worker (i m : Nat) (v : V) :
    balance (List.replicate i (.push v) ++ List.replicate m (.pop : Op V)) = m - i := by
  induction i with
  | zero =>
    rw [List.replicate_zero, List.nil_append, balance_replicate_pop]
    omega
  | succ i ih =>
    rw [List.replicate_succ, List.cons_append, balance_push, ih]
    omega

private theorem fair_replicate_pop {j m : Nat} (h : j ≤ m) : Fair m (List.replicate j (.pop : Op V)) := by
  induction j with
  | zero => exact trivial
  | succ j ih =>
    have hbalance := balance_replicate_pop (V := V) (j + 1)
    rw [List.replicate_succ] at hbalance ⊢
    exact ⟨.inr rfl, by omega, by omega, ih (by omega)⟩

private theorem fair_pushes {i m : Nat} (v : V) (h : i ≤ m) :
    Fair m (List.replicate i (.push v) ++ List.replicate m (.pop : Op V)) := by
  induction i with
  | zero => exact fair_replicate_pop (Nat.le_refl m)
  | succ i ih =>
    have hbalance := balance_worker (i + 1) m v
    rw [List.replicate_succ, List.cons_append] at hbalance ⊢
    exact ⟨.inl rfl, by omega, by omega, ih (by omega)⟩

/-- The call that a process is in, as long as it has not changed semaphore 1. -/
def Pc.pending : Pc V → List (Op V)
  | .push _ (.unlock _) => []
  | .push v _ => [.push v]
  | .pop (.unlock _ _) => []
  | .pop _ => [.pop]
  | _ => []

/-- The calls of a process that have not changed semaphore 1. -/
def Workers.rest (w : Workers P V) (p : P) : List (Op V) := (w.state.proc p).pc.pending ++ w.todo p

/-- How many steps a call still takes. -/
def Pc.left : Pc V → Nat
  | .push _ .size => 6
  | .push _ (.count _) => 5
  | .push _ (.lock ..) => 4
  | .push _ (.write ..) => 3
  | .push _ (.incr _) => 2
  | .push _ (.unlock _) => 1
  | .pop .count => 5
  | .pop (.lock ..) => 4
  | .pop (.read ..) => 3
  | .pop (.decr ..) => 2
  | .pop (.unlock ..) => 1
  | _ => 0

/-- The places of a call that waits for nobody, in a stack of the given size with slots below `n`. -/
def Place (size n : Int) : Pc V → Prop
  | .idle | .push _ .size | .push _ (.incr _) | .push _ (.unlock _) => True
  | .push _ (.count size') => size' = size
  | .push _ (.lock count _) | .push _ (.write count _) => 0 ≤ count ∧ count < n
  | .pop .count | .pop (.decr ..) | .pop (.unlock ..) => True
  | .pop (.lock count _) | .pop (.read count _) => 0 < count ∧ count ≤ n
  | _ => False

/-- A step of a call that waits for nobody. -/
structure Advance (size n : Int) (val val' : Nat → Int) (pc pc' : Pc V) (r : Option (Ret V)) : Prop where
  cap : val' 0 = val 0
  /-- Semaphore 1 changes once in a call. -/
  count : (pc'.pending = pc.pending ∧ val' 1 = val 1) ∨
    ∃ op, pc.pending = [op] ∧ pc'.pending = [] ∧ val' 1 + balance [op] = val 1
  left : pc'.left + 1 = pc.left
  place : Place size n pc'
  granted : ∀ x ∈ r, x.Granted

/-- There is room for `n` values: under the size, in a semaphore and in the segment. -/
structure Base.HasRoom (b : Base) (size n : Int) : Prop where
  size : n ≤ size
  max : n ≤ semvmx
  slots : ∀ i, 0 ≤ i → i < n → InSegment b.segSize i

section Places

variable [Zero V] {b : Base} {val : Nat → Int} {slot : Nat → V} {stack : StackT} {n : Int}

/-- The places of a push, when there is room. -/
private theorem push_advances {v : V} {pc : PushPc} (hst : b.Attached stack) (hok : PcOk (.push v pc : Pc V))
    (hplace : Place (val 0) n (.push v pc : Pc V)) (hlock : Pc.atLock (.push v pc : Pc V) = true → val 2 = 1)
    (hin : Pc.inside (.push v pc : Pc V) = true → val 2 = 0) (hroom : b.HasRoom (val 0) n)
    (hfree : Pc.pending (.push v pc : Pc V) = [.push v] → 0 ≤ val 1 ∧ val 1 < n) :
    ∃ val' slot' pc' r, Proc.step (b.kernel val slot) ⟨some stack, .push v pc⟩ =
        some (b.kernel val' slot', ⟨some stack, pc'⟩, r) ∧
      Advance (val 0) n val val' (.push v pc) pc' r := by
  obtain ⟨hsem, hshm⟩ := hst
  obtain ⟨hsize, hmax, hslots⟩ := hroom
  cases pc with
  | size =>
    refine ⟨val, slot, _, _, push_size_step ⟨hsem, hshm⟩, rfl, .inl ⟨rfl, rfl⟩, rfl, rfl, ?_⟩
    simp
  | count size =>
    obtain rfl : size = val 0 := hplace
    obtain ⟨hpos, hlt⟩ := hfree rfl
    refine ⟨val, slot, _, _, push_count_step ⟨hsem, hshm⟩ (by omega), rfl, .inl ⟨rfl, rfl⟩, rfl, ⟨hpos, hlt⟩, ?_⟩
    simp
  | lock count buf =>
    obtain rfl : buf = lockBuf := hok
    refine ⟨_, slot, _, _, push_lock_step ⟨hsem, hshm⟩ (hlock rfl) count, rfl, .inl ⟨rfl, rfl⟩, rfl, hplace, ?_⟩
    simp
  | write count buf =>
    obtain rfl : buf = lockBuf := hok
    have hstore := Base.store_of_inSegment val slot v (hslots count hplace.1 hplace.2)
    refine ⟨val, Function.update slot count.toNat v, .push v (.incr ⟨1, 1⟩), none, ?_, rfl, .inl ⟨rfl, rfl⟩, rfl,
      trivial, ?_⟩
    · simp only [Proc.step, pushStep, hshm, hstore, Option.bind_some, Option.map_some, Next.resume]
    · simp
  | incr buf =>
    obtain rfl : buf = ⟨1, 1⟩ := hok
    obtain ⟨hpos, hlt⟩ := hfree rfl
    have hop := b.semop_of_le val slot 1 1 (by omega) (by omega) (by omega) (by omega)
    refine ⟨Function.update val 1 (val 1 + 1), slot, .push v (.unlock ⟨2, 1⟩), none, ?_, rfl,
      .inr ⟨.push v, rfl, rfl, ?_⟩, rfl, trivial, ?_⟩
    · simp only [Proc.step, pushStep, hsem, hop, Option.bind_some, Option.map_some, Next.resume]
    · rw [balance_push, balance_nil, Function.update_self]
      omega
    · simp
  | unlock buf =>
    obtain rfl : buf = ⟨2, 1⟩ := hok
    have hop := b.semop_unlock_of_held val slot (hin rfl)
    refine ⟨Function.update val 2 1, slot, .idle, some (.push v 0), ?_, rfl, .inl ⟨rfl, rfl⟩, rfl, trivial, ?_⟩
    · simp only [Proc.step, pushStep, hsem, hop, Option.bind_some, Option.map_some, Next.resume]
    · intro x hx
      cases hx
      exact rfl
  | spin | nanosleep | recount => exact hplace.elim

/-- The places of a pop, when there is a value. -/
private theorem pop_advances {pc : PopPc V} (hst : b.Attached stack) (hok : PcOk (.pop pc))
    (hplace : Place (val 0) n (.pop pc)) (hlock : Pc.atLock (.pop pc) = true → val 2 = 1)
    (hin : Pc.inside (.pop pc) = true → val 2 = 0) (hroom : b.HasRoom (val 0) n)
    (hvalue : Pc.pending (.pop pc) = [.pop] → 0 < val 1 ∧ val 1 ≤ n) :
    ∃ val' slot' pc' r, Proc.step (b.kernel val slot) ⟨some stack, .pop pc⟩ =
        some (b.kernel val' slot', ⟨some stack, pc'⟩, r) ∧
      Advance (val 0) n val val' (.pop pc) pc' r := by
  obtain ⟨hsem, hshm⟩ := hst
  obtain ⟨-, hmax, hslots⟩ := hroom
  cases pc with
  | count =>
    obtain ⟨hpos, hle⟩ := hvalue rfl
    have hne : val 1 ≠ 0 := by omega
    refine ⟨val, slot, .pop (.lock (val 1) lockBuf), none, ?_, rfl, .inl ⟨rfl, rfl⟩, rfl, ⟨hpos, hle⟩, ?_⟩
    · simp [Proc.step, popStep, popTest, Next.resume, hsem, hne]
    · simp
  | lock count buf =>
    obtain rfl : buf = lockBuf := hok
    have hop := b.semop_lock_of_free val slot (hlock rfl)
    refine ⟨Function.update val 2 0, slot, .pop (.read count lockBuf), none, ?_, rfl, .inl ⟨rfl, rfl⟩, rfl, hplace, ?_⟩
    · simp only [Proc.step, popStep, hsem, hop, Option.bind_some, Option.map_some, Next.resume]
    · simp
  | read count buf =>
    obtain rfl : buf = lockBuf := hok
    obtain ⟨hpos, hle⟩ := hplace
    have hload := Base.load_of_inSegment val slot (hslots (count - 1) (by omega) (by omega))
    refine ⟨val, slot, .pop (.decr (slot (count - 1).toNat) ⟨1, -1⟩), none, ?_, rfl, .inl ⟨rfl, rfl⟩, rfl, trivial, ?_⟩
    · simp only [Proc.step, popStep, hshm, hload, Option.bind_some, Option.map_some, Next.resume]
    · simp
  | decr out buf =>
    obtain rfl : buf = ⟨1, -1⟩ := hok
    obtain ⟨hpos, hle⟩ := hvalue rfl
    have hop := b.semop_of_le val slot 1 (-1) (by omega) (by omega) (by omega) (by omega)
    refine ⟨Function.update val 1 (val 1 + -1), slot, .pop (.unlock out ⟨2, 1⟩), none, ?_, rfl,
      .inr ⟨.pop, rfl, rfl, ?_⟩, rfl, trivial, ?_⟩
    · simp only [Proc.step, popStep, hsem, hop, Option.bind_some, Option.map_some, Next.resume]
    · rw [balance_pop, balance_nil, Function.update_self]
      omega
    · simp
  | unlock out buf =>
    obtain rfl : buf = ⟨2, 1⟩ := hok
    have hop := b.semop_unlock_of_held val slot (hin rfl)
    refine ⟨Function.update val 2 1, slot, .idle, some (.pop (some out) 0), ?_, rfl, .inl ⟨rfl, rfl⟩, rfl, trivial, ?_⟩
    · simp only [Proc.step, popStep, hsem, hop, Option.bind_some, Option.map_some, Next.resume]
    · intro x hx
      cases hx
      exact ⟨rfl, rfl⟩
  | spin | nanosleep | recount => exact hplace.elim

end Places

/-! ### All processes -/

/-- The values that there may be at once, when every process pushes `m`. -/
def most (P : Type) [Fintype P] (m : Nat) : Int := (Fintype.card P * m : Nat)

/-- Semaphore 1 is what the processes still have to pop more than to push, and no call has been refused. -/
structure Calm [Fintype P] (b : Base) (size : Int) (m : Nat) (w : Workers P V) : Prop where
  sems : ∃ val slot holder, Exclusive b val slot holder w.state ∧ val 0 = size ∧ val 1 = ∑ p, balance (w.rest p)
  place : ∀ p, Place size (most P m) (w.state.proc p).pc
  fair : ∀ p, Fair m (w.rest p)
  granted : ∀ e ∈ w.state.log, e.2.Granted

/-- How many steps a process still takes, and all of them: a call is at most six steps and its beginning. -/
def Workers.share (w : Workers P V) (p : P) : Nat := (w.state.proc p).pc.left + 7 * (w.todo p).length

def Workers.left [Fintype P] (w : Workers P V) : Nat := ∑ p, w.share p

/-- Two functions that differ at one process. -/
private theorem sum_change {M : Type} [AddCommMonoid M] [Fintype P] [DecidableEq P] {f g : P → M} (p : P)
    (h : ∀ q, q ≠ p → g q = f q) : ∑ q, g q + f p = ∑ q, f q + g p := by
  have hrest : ∑ q ∈ Finset.univ.erase p, g q = ∑ q ∈ Finset.univ.erase p, f q :=
    Finset.sum_congr rfl fun q hq => h q (Finset.ne_of_mem_erase hq)
  rw [← Finset.add_sum_erase _ g (Finset.mem_univ p), ← Finset.add_sum_erase _ f (Finset.mem_univ p), hrest,
    add_right_comm, add_right_comm (f p), add_comm (g p)]

private theorem Workers.left_lt [Fintype P] [DecidableEq P] {w w' : Workers P V} (p : P)
    (hother : ∀ q, q ≠ p → w'.share q = w.share q) (hlt : w'.share p < w.share p) : w'.left < w.left := by
  have hsum := sum_change p hother
  rw [Workers.left, Workers.left]
  omega

private theorem Workers.rest_of_pending {w : Workers P V} {p : P} {op : Op V}
    (hpc : (w.state.proc p).pc.pending = [op]) :
    w.rest p = op :: w.todo p := by
  rw [Workers.rest, hpc]
  rfl

private theorem sum_eq_most [Fintype P] (m : Nat) : ∑ _q : P, (m : Int) = most P m := by
  rw [Finset.sum_const, Finset.card_univ, nsmul_eq_mul, most, Nat.cast_mul]

section Sums

variable [Fintype P] {b : Base} {size : Int} {m : Nat} {w : Workers P V} {p : P}

private theorem Calm.sum_nonneg (h : Calm b size m w) : 0 ≤ ∑ q, balance (w.rest q) :=
  Finset.sum_nonneg fun q _ => (h.fair q).bounds.1

private theorem Calm.sum_le (h : Calm b size m w) : ∑ q, balance (w.rest q) ≤ most P m := by
  calc ∑ q, balance (w.rest q) ≤ ∑ _q : P, (m : Int) := Finset.sum_le_sum fun q _ => (h.fair q).bounds.2
    _ = most P m := sum_eq_most m

/-- While somebody has yet to push, there is room. -/
private theorem Calm.sum_lt {v : V} (h : Calm b size m w) (hpc : (w.state.proc p).pc.pending = [.push v]) :
    ∑ q, balance (w.rest q) < most P m := by
  have hrest := Workers.rest_of_pending hpc
  have hlt : balance (w.rest p) < m := by
    have hfair := h.fair p
    rw [hrest] at hfair ⊢
    have hbounds := (hfair.2.2.2).bounds
    rw [balance_push]
    omega
  calc ∑ q, balance (w.rest q) < ∑ _q : P, (m : Int) :=
        Finset.sum_lt_sum (fun q _ => (h.fair q).bounds.2) ⟨p, Finset.mem_univ p, hlt⟩
    _ = most P m := sum_eq_most m

/-- While somebody has yet to pop, there is a value. -/
private theorem Calm.sum_pos (h : Calm b size m w) (hpc : (w.state.proc p).pc.pending = [.pop]) :
    0 < ∑ q, balance (w.rest q) := by
  have hfair := h.fair p
  have hrest := Workers.rest_of_pending hpc
  have hpos : 0 < balance (w.rest p) := by
    rw [hrest] at hfair ⊢
    have hbounds := (hfair.2.2.2).bounds
    rw [balance_pop]
    omega
  have hle : balance (w.rest p) ≤ ∑ q, balance (w.rest q) :=
    Finset.single_le_sum (fun q _ => (h.fair q).bounds.1) (Finset.mem_univ p)
  omega

end Sums

private theorem Base.kernel_inj {b : Base} {val val' : Nat → Int} {slot slot' : Nat → V}
    (h : b.kernel val slot = b.kernel val' slot') : val = val' := by
  injection h with _ hsem
  injection hsem with hset
  injection hset

/-- A call begins: nothing has been pushed or popped yet. -/
private theorem Op.start_pending {op : Op V} {p : P} (h : op.isPush = true ∨ op = .pop) (size n : Int) :
    op.start.pending = [op] ∧ Place size n op.start ∧ op.start.left ≤ 6 ∧ (Action.call p op).noAttach := by
  rcases h with h | rfl
  · cases op with
    | push v => exact ⟨rfl, trivial, Nat.le_refl 6, trivial⟩
    | _ => cases h
  · exact ⟨rfl, trivial, Nat.le_succ 5, trivial⟩

section Steps

variable [DecidableEq P] [Zero V] {b : Base} {size : Int} {m : Nat} {w w' : Workers P V} {p : P} {s : State P V}

theorem Workers.step_cases (h : w.step p = some w') :
    (∃ op ops s, (w.state.proc p).pc = .idle ∧ w.todo p = op :: ops ∧ w.state.step (.call p op) = some s ∧
      w' = ⟨s, Function.update w.todo p ops⟩) ∨
    ∃ s, (w.state.proc p).pc ≠ .idle ∧ w.state.step (.step p) = some s ∧ w' = ⟨s, w.todo⟩ := by
  unfold Workers.step at h
  split at h
  · cases h
  · rename_i op ops hidle htodo
    obtain ⟨s, hs, rfl⟩ := Option.map_eq_some_iff.1 h
    exact .inl ⟨op, ops, s, hidle, htodo, hs, rfl⟩
  · obtain ⟨s, hs, rfl⟩ := Option.map_eq_some_iff.1 h
    exact .inr ⟨s, pc_ne_idle hs, hs, rfl⟩

private theorem Workers.step_of_idle {op : Op V} {ops : List (Op V)} (hidle : (w.state.proc p).pc = .idle)
    (htodo : w.todo p = op :: ops) : ∃ w', w.step p = some w' := by
  simp [Workers.step, hidle, htodo, State.step]

private theorem Workers.step_of_busy (hs : w.state.step (.step p) = some s) : ∃ w', w.step p = some w' := by
  have hbusy := pc_ne_idle hs
  unfold Workers.step
  split
  · exact absurd (by assumption) hbusy
  · exact absurd (by assumption) hbusy
  · rw [hs]
    exact ⟨_, rfl⟩

variable [Fintype P]

/-- The next step of a process in a call, unless it waits for the mutex. -/
private theorem Calm.advance {val : Nat → Int} {slot : Nat → V} {holder : Option P} (hroom : b.HasRoom size (most P m))
    (h : Calm b size m w) (hex : Exclusive b val slot holder w.state) (hcap : val 0 = size)
    (hcount : val 1 = ∑ p, balance (w.rest p)) (hbusy : (w.state.proc p).pc ≠ .idle)
    (hfree : (w.state.proc p).pc.atLock = true → holder = none) :
    ∃ val' slot' pc' r, w.state.step (.step p) = some ⟨b.kernel val' slot',
        Function.update w.state.proc p { w.state.proc p with pc := pc' }, w.state.log ++ (r.map (p, ·)).toList⟩ ∧
      Advance size (most P m) val val' (w.state.proc p).pc pc' r := by
  subst hcap
  obtain ⟨stack, hstack, hst⟩ := hex.attached p
  have hok := hex.pcOk p
  have hplace := h.place p
  have hlock : (w.state.proc p).pc.atLock = true → val 2 = 1 := by
    intro hl
    rw [hex.mutex, hfree hl]
    rfl
  have hin : (w.state.proc p).pc.inside = true → val 2 = 0 := by
    intro hin
    rw [hex.mutex, (hex.inside_iff p).1 hin]
    rfl
  have hpush : ∀ v, (w.state.proc p).pc.pending = [.push v] → 0 ≤ val 1 ∧ val 1 < most P m := by
    intro v hpc
    rw [hcount]
    exact ⟨h.sum_nonneg, h.sum_lt hpc⟩
  have hpop : (w.state.proc p).pc.pending = [.pop] → 0 < val 1 ∧ val 1 ≤ most P m := by
    intro hpc
    rw [hcount]
    exact ⟨h.sum_pos hpc, h.sum_le⟩
  have hproc : w.state.proc p = ⟨some stack, (w.state.proc p).pc⟩ := by rw [← hstack]
  have hstep : ∃ val' slot' pc' r, (w.state.proc p).step w.state.kernel =
      some (b.kernel val' slot', ⟨some stack, pc'⟩, r) ∧
      Advance (val 0) (most P m) val val' (w.state.proc p).pc pc' r := by
    rw [hex.kernel, hproc]
    generalize (w.state.proc p).pc = pc at *
    cases pc with
    | push v pc => exact push_advances hst hok hplace hlock hin hroom (hpush v)
    | pop pc => exact pop_advances hst hok hplace hlock hin hroom hpop
    | idle => exact absurd rfl hbusy
    | attach | printAll | getSize | getCount | setWait => exact hplace.elim
  obtain ⟨val', slot', pc', r, hs, hadv⟩ := hstep
  refine ⟨val', slot', pc', r, ?_, hadv⟩
  rw [State.step, hs, ← hstack]
  rfl

/-- A process begins its next call. -/
private theorem calm_call {op : Op V} {ops : List (Op V)} (h : Calm b size m w) (hidle : (w.state.proc p).pc = .idle)
    (htodo : w.todo p = op :: ops) (hs : w.state.step (.call p op) = some s) :
    Calm b size m ⟨s, Function.update w.todo p ops⟩ ∧
      Workers.left ⟨s, Function.update w.todo p ops⟩ < w.left := by
  have hrest : w.rest p = op :: ops := by rw [Workers.rest, hidle, htodo]; rfl
  have hfair := h.fair p
  rw [hrest] at hfair
  obtain ⟨hpending, hplace, hleft, hno⟩ := Op.start_pending hfair.1 (p := p) size (most P m)
  obtain ⟨val, slot, holder, hex, hcap, hcount⟩ := h.sems
  obtain ⟨val', slot', holder', -, hex'⟩ := exclusive_step hex hno hs
  obtain rfl : s = { w.state with proc := Function.update w.state.proc p { w.state.proc p with pc := op.start } } := by
    simpa [State.step, hidle] using hs.symm
  obtain rfl : val' = val := Base.kernel_inj (hex'.kernel.symm.trans hex.kernel)
  let w' : Workers P V := ⟨{ w.state with
    proc := Function.update w.state.proc p { w.state.proc p with pc := op.start } }, Function.update w.todo p ops⟩
  have hsame : ∀ q, w'.rest q = w.rest q := by
    intro q
    by_cases hq : q = p
    · subst hq
      rw [hrest, Workers.rest]
      simp only [w', Function.update_self]
      rw [hpending]
      rfl
    · simp [w', Workers.rest, hq]
  refine ⟨⟨⟨val', slot', holder', hex', hcap, ?_⟩, ?_, ?_, h.granted⟩, ?_⟩
  · rw [hcount]
    exact Finset.sum_congr rfl fun q _ => by rw [← hsame q]
  · exact forall_proc_update (fun q => Place size (most P m) q.pc) h.place hplace
  · intro q
    rw [hsame q]
    exact h.fair q
  · have hnew : w'.share p = op.start.left + 7 * ops.length := by simp [w', Workers.share]
    have hold : w.share p = 0 + 7 * (ops.length + 1) := by
      rw [Workers.share, hidle, htodo]
      rfl
    exact @Workers.left_lt P V _ _ w w' p (fun q hq => by simp [w', Workers.share, hq]) (by omega)

/-- A process moves in its call. -/
private theorem calm_move (hroom : b.HasRoom size (most P m)) (h : Calm b size m w)
    (hbusy : (w.state.proc p).pc ≠ .idle) (hs : w.state.step (.step p) = some s) :
    Calm b size m ⟨s, w.todo⟩ ∧ Workers.left ⟨s, w.todo⟩ < w.left := by
  obtain ⟨val, slot, holder, hex, hcap, hcount⟩ := h.sems
  obtain ⟨val'', slot'', holder', hmoved, hex'⟩ := exclusive_step hex (a := .step p) trivial hs
  have hfree : (w.state.proc p).pc.atLock = true → holder = none := by
    intro hl
    cases hmoved with
    | look _ hnot => rw [hl] at hnot; cases hnot
    | lock _ hfree => exact hfree
    | inside hholder =>
      have hin := (hex.inside_iff p).2 hholder
      rw [Pc.inside_of_atLock hl] at hin
      cases hin
  obtain ⟨val', slot', pc', r, hs', hadv⟩ := h.advance hroom hex hcap hcount hbusy hfree
  obtain rfl := Option.some.inj (hs'.symm.trans hs)
  obtain rfl : val'' = val' := Base.kernel_inj hex'.kernel.symm
  let w' : Workers P V := ⟨⟨b.kernel val'' slot', Function.update w.state.proc p { w.state.proc p with pc := pc' },
    w.state.log ++ (r.map (p, ·)).toList⟩, w.todo⟩
  have hother : ∀ q, q ≠ p → w'.rest q = w.rest q := fun q hq => by simp [w', Workers.rest, hq]
  have hself : w'.rest p = pc'.pending ++ w.todo p := by simp [w', Workers.rest]
  have hfair := h.fair p
  -- what is still to be done, and semaphore 1
  have hrest : Fair m (w'.rest p) ∧ val'' 1 + balance (w.rest p) = val 1 + balance (w'.rest p) := by
    rcases hadv.count with ⟨hsame, hval⟩ | ⟨op, hop, hnone, hval⟩
    · have heq : w'.rest p = w.rest p := by rw [hself, hsame, Workers.rest]
      rw [heq, hval]
      exact ⟨hfair, rfl⟩
    · rw [hself, hnone, List.nil_append]
      rw [Workers.rest_of_pending hop] at hfair ⊢
      refine ⟨hfair.2.2.2, ?_⟩
      have hcons : balance (op :: w.todo p) = balance [op] + balance (w.todo p) := balance_cons ..
      omega
  refine ⟨⟨⟨val'', slot'', holder', hex', hadv.cap.trans hcap, ?_⟩, ?_, ?_, ?_⟩, ?_⟩
  · have hsum := sum_change (f := fun q => balance (w.rest q)) (g := fun q => balance (w'.rest q)) p
      fun q hq => by rw [hother q hq]
    show val'' 1 = ∑ q, balance (w'.rest q)
    have hbalance := hrest.2
    omega
  · exact forall_proc_update (fun q => Place size (most P m) q.pc) h.place hadv.place
  · intro q
    by_cases hq : q = p
    · subst hq
      exact hrest.1
    · show Fair m (w'.rest q)
      rw [hother q hq]
      exact h.fair q
  · intro e he
    rcases List.mem_append.1 he with he | he
    · exact h.granted e he
    · obtain ⟨x, hx, rfl⟩ := by simpa using he
      exact hadv.granted x hx
  · have hnew : w'.share p = pc'.left + 7 * (w.todo p).length := by simp [w', Workers.share]
    have hold : w.share p = (w.state.proc p).pc.left + 7 * (w.todo p).length := rfl
    have hleft := hadv.left
    exact @Workers.left_lt P V _ _ w w' p (fun q hq => by simp [w', Workers.share, hq]) (by omega)

/-- One step of the test keeps semaphore 1 in step with the programs, and is one of finitely many. -/
theorem calm_step (hroom : b.HasRoom size (most P m)) (h : Calm b size m w) (hs : w.step p = some w') :
    Calm b size m w' ∧ w'.left < w.left := by
  rcases Workers.step_cases hs with ⟨op, ops, s, hidle, htodo, hcall, rfl⟩ | ⟨s, hbusy, hmove, rfl⟩
  · exact calm_call h hidle htodo hcall
  · exact calm_move hroom h hbusy hmove

/-- Somebody can take a step as long as not everybody has come to the end of its program: who holds the mutex can, and
when nobody does everybody can. -/
theorem calm_moves (hroom : b.HasRoom size (most P m)) (h : Calm b size m w)
    (hnot : ¬ ((w.state.proc p).pc = .idle ∧ w.todo p = [])) : ∃ q w', w.step q = some w' := by
  obtain ⟨val, slot, holder, hex, hcap, hcount⟩ := h.sems
  cases holder with
  | some q =>
    have hin := (hex.inside_iff q).2 rfl
    have hbusy : (w.state.proc q).pc ≠ .idle := by
      intro hidle
      rw [hidle] at hin
      cases hin
    have hlock : (w.state.proc q).pc.atLock = true → some q = none := by
      intro hl
      rw [Pc.inside_of_atLock hl] at hin
      cases hin
    obtain ⟨val', slot', pc', r, hs, -⟩ := h.advance hroom hex hcap hcount hbusy hlock
    exact ⟨q, Workers.step_of_busy hs⟩
  | none =>
    by_cases hidle : (w.state.proc p).pc = .idle
    · obtain ⟨op, ops, htodo⟩ := List.exists_cons_of_ne_nil fun htodo => hnot ⟨hidle, htodo⟩
      exact ⟨p, Workers.step_of_idle hidle htodo⟩
    · obtain ⟨val', slot', pc', r, hs, -⟩ := h.advance hroom hex hcap hcount hidle fun _ => rfl
      exact ⟨p, Workers.step_of_busy hs⟩

end Steps

/-! ### The test -/

section Test

variable [Fintype P] [DecidableEq P] [Zero V] {b : Base} {val : Nat → Int} {slot : Nat → V} {s₀ : State P V}
  {m : Nat} {v : V} {ps : List P} {w : Workers P V}

omit [DecidableEq P] [Zero V] in
private theorem calm_start (h₀ : AtRest b val slot s₀) (hempty : val 1 = 0) (hlog : s₀.log = []) (v : V) (m : Nat) :
    Calm b (val 0) m (⟨s₀, fun _ => worker m v⟩ : Workers P V) := by
  have hrest : ∀ p, Workers.rest ⟨s₀, fun _ => worker m v⟩ p = worker m v := by
    intro p
    rw [Workers.rest, h₀.quiescent p]
    rfl
  have hbalance : balance (worker m v) = 0 := by
    rw [worker, balance_worker]
    omega
  refine ⟨⟨val, slot, none, h₀.exclusive, rfl, ?_⟩, ?_, ?_, ?_⟩
  · rw [hempty]
    exact (Finset.sum_eq_zero fun p _ => by rw [hrest p, hbalance]).symm
  · intro p
    rw [h₀.quiescent p]
    trivial
  · intro p
    rw [hrest p]
    exact fair_pushes v (Nat.le_refl m)
  · intro e he
    rw [hlog] at he
    cases he

/-- Any number of processes push `m` values each and then pop `m`, at the same time and in any wait modes, on a stack
with room for all of them: in every run every push and every pop is granted, the run is no longer than all the calls
together, and where it cannot go on every process has made all its calls, the stack is empty and the mutex free. -/
theorem stress_test (h₀ : AtRest b val slot s₀) (hempty : val 1 = 0) (hlog : s₀.log = [])
    (hroom : b.HasRoom (val 0) (most P m))
    (hrun : run Workers.step ⟨s₀, fun _ => worker m v⟩ ps = some w) :
    (∀ e ∈ w.state.log, e.2.Granted) ∧ ps.length ≤ 14 * m * Fintype.card P ∧
      ((∀ p, w.step p = none) →
        (∀ p, (w.state.proc p).pc = .idle ∧ w.todo p = []) ∧ w.state.kernel.semVal 1 = 0 ∧
          w.state.kernel.semVal 2 = 1) := by
  have hstart := calm_start h₀ hempty hlog v m
  have h : Calm b (val 0) m w :=
    run_invariant (fun _ _ _ h hs => (calm_step hroom h hs).1) hstart hrun
  refine ⟨h.granted, ?_, fun hend => ?_⟩
  · have hleft : Workers.left ⟨s₀, fun _ => worker m v⟩ = 14 * m * Fintype.card P := by
      have hone : ∀ p, Workers.share ⟨s₀, fun _ => worker m v⟩ p = 14 * m := by
        intro p
        have hidle : (Pc.idle : Pc V).left = 0 := rfl
        rw [Workers.share, h₀.quiescent p, hidle, worker, List.length_append, List.length_replicate,
          List.length_replicate]
        omega
      rw [Workers.left, Finset.sum_congr rfl fun p _ => hone p, Finset.sum_const, Finset.card_univ, nsmul_eq_mul,
        Nat.cast_id, Nat.mul_comm]
    rw [← hleft]
    have hpays : ∀ (k : Nat) (s : Workers P V) (p : P) (t : Workers P V), (Calm b (val 0) m s ∧ s.left = k) →
        s.step p = some t → ∃ k' < k, Calm b (val 0) m t ∧ t.left = k' := by
      rintro k s p t ⟨hcalm, rfl⟩ hs
      obtain ⟨hcalm', hlt⟩ := calm_step hroom hcalm hs
      exact ⟨t.left, hlt, hcalm', rfl⟩
    exact length_le_of_credit hpays ⟨hstart, rfl⟩ hrun
  · have hdone : ∀ p, (w.state.proc p).pc = .idle ∧ w.todo p = [] := by
      intro p
      by_contra hnot
      obtain ⟨q, w', hs⟩ := calm_moves hroom h hnot
      rw [hend q] at hs
      cases hs
    obtain ⟨val', slot', holder, hex, -, hcount⟩ := h.sems
    refine ⟨hdone, ?_, ?_⟩
    · rw [hex.semVal, hcount]
      refine Finset.sum_eq_zero fun p _ => ?_
      rw [Workers.rest, (hdone p).1, (hdone p).2]
      rfl
    · rw [hex.semVal, hex.mutex]
      cases holder with
      | none => rfl
      | some p =>
        have hin := (hex.inside_iff p).2 rfl
        rw [(hdone p).1] at hin
        cases hin

/-- The numbers of test.c: 32 processes with ten values each; two of them read the same count. -/
theorem stress_test_two :
    ∃ w : Workers (Fin 32) Nat, run Workers.step ⟨emptyStack (Fin 32) 8192, fun _ => worker 10 1⟩
        [0, 1, 0, 1, 0, 1, 0, 0, 0, 0, 1, 1, 1, 1] = some w ∧
      (∀ e ∈ w.state.log, e.2.Granted) ∧
      [0, 1, 0, 1, 0, 1, 0, 0, 0, 0, 1, 1, 1, 1].length ≤ 14 * 10 * Fintype.card (Fin 32) ∧
      ((∀ p, w.step p = none) →
        (∀ p, (w.state.proc p).pc = .idle ∧ w.todo p = []) ∧ w.state.kernel.semVal 1 = 0 ∧
          w.state.kernel.semVal 2 = 1) := by
  obtain ⟨w, hrun⟩ : ∃ w : Workers (Fin 32) Nat, run Workers.step ⟨emptyStack (Fin 32) 8192, fun _ => worker 10 1⟩
      [0, 1, 0, 1, 0, 1, 0, 0, 0, 0, 1, 1, 1, 1] = some w := ⟨_, rfl⟩
  refine ⟨w, hrun, stress_test (emptyStack_atRest (Fin 32) 8192) rfl rfl ⟨?_, ?_, ?_⟩ hrun⟩
  · decide
  · decide
  · intro i h0 hlt
    have hmost : most (Fin 32) 10 = 320 := rfl
    refine ⟨h0, ?_⟩
    show 8 * (i + 1) ≤ segmentBytes 8192
    have hbytes : segmentBytes 8192 = 8192 := rfl
    omega

end Test

end UnixTasks.ShStack
