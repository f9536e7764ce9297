import UnixTasks.Lib.Lifo
import UnixTasks.Lib.Linearize
import UnixTasks.ShStack.Exclusion

/-!
# Calls that do not overlap

When every call runs to its end before the next one starts, the three semaphores and the slots together are a bounded
last-in-first-out list.

* (`State.callAlone`) one call that runs alone; such calls one after another are one of the interleavings of the
  system of all processes (`run_callAlone_reachable`);
* (`answer`) what a bounded last-in-first-out list answers to a call;
* (`Represents`) semaphore 0 is the capacity, semaphore 1 the number of values, and the slots below it hold them;
* (`callAlone_represents`) one call keeps the relation and returns what the list answers;
* (`run_answers`) the same for every sequence of calls, from the attach that makes the stack.
-/

namespace UnixTasks.ShStack

open ActionSystem

variable {P V : Type}

/-! ### Running one call alone -/

/-- The steps of a process until its call returns, at most `fuel` of them. -/
def Proc.finish [Zero V] : Nat → Kernel V → Proc V → Option (Kernel V × Proc V × Ret V)
  | 0, _, _ => none
  | fuel + 1, k, p =>
    match p.step k with
    | none => none
    | some (k, p, some r) => some (k, p, r)
    | some (k, p, none) => p.finish fuel k

/-- A process that is in no call makes one and is the only one to move until the call returns. -/
def State.callAlone [Zero V] [DecidableEq P] (fuel : Nat) (s : State P V) (c : P × Op V) : Option (State P V) :=
  match (s.proc c.1).pc with
  | .idle => (Proc.finish fuel s.kernel { s.proc c.1 with pc := c.2.start }).map fun (k, q, r) =>
    ⟨k, Function.update s.proc c.1 q, s.log ++ [(c.1, r)]⟩
  | _ => none

section Finish

variable [Zero V] {k k' : Kernel V} {p q : Proc V} {r : Ret V} {fuel : Nat}

theorem Proc.finish_goto (h : p.step k = some (k', q, none)) : p.finish (fuel + 1) k = q.finish fuel k' := by
  rw [Proc.finish, h]

theorem Proc.finish_ret (h : p.step k = some (k', q, some r)) : p.finish (fuel + 1) k = some (k', q, r) := by
  rw [Proc.finish, h]

/-- A call that runs alone is a run of the system of all processes. -/
private theorem finish_run [DecidableEq P] {s : State P V} {a : P}
    (h : (s.proc a).finish fuel s.kernel = some (k', q, r)) :
    ∃ n, run State.step s (List.replicate n (.step a)) =
      some ⟨k', Function.update s.proc a q, s.log ++ [(a, r)]⟩ := by
  induction fuel generalizing s with
  | zero => cases h
  | succ fuel ih =>
    rw [Proc.finish] at h
    split at h
    · cases h
    · rename_i k₁ p₁ r₁ hstep
      cases h
      refine ⟨1, ?_⟩
      simp [State.step, hstep]
    · rename_i k₁ p₁ hstep
      let t : State P V := ⟨k₁, Function.update s.proc a p₁, s.log⟩
      have ht : (t.proc a).finish fuel t.kernel = some (k', q, r) := by simpa [t] using h
      obtain ⟨n, hn⟩ := ih ht
      refine ⟨n + 1, ?_⟩
      have hs : State.step s (.step a) = some t := by simp [State.step, hstep, t]
      rw [List.replicate_succ, run_cons, hs, Option.bind_some, hn]
      simp [t]

theorem callAlone_run [DecidableEq P] {s t : State P V} {a : P} {op : Op V}
    (h : s.callAlone fuel (a, op) = some t) :
    ∃ n, run State.step s (.call a op :: List.replicate n (.step a)) = some t := by
  unfold State.callAlone at h
  split at h
  · rename_i hidle
    rw [Option.map_eq_some_iff] at h
    obtain ⟨⟨k', q, r⟩, hfin, rfl⟩ := h
    let u : State P V := { s with proc := Function.update s.proc a { s.proc a with pc := op.start } }
    have hu : (u.proc a).finish fuel u.kernel = some (k', q, r) := by simpa [u] using hfin
    obtain ⟨n, hn⟩ := finish_run hu
    refine ⟨n, ?_⟩
    have hs : State.step s (.call a op) = some u := by simp [State.step, hidle, u]
    rw [run_cons, hs, Option.bind_some, hn]
    simp [u]
  · cases h

/-- Calls that run one after another are a run of the system of all processes. -/
theorem run_callAlone_reachable [DecidableEq P] {s t : State P V} {calls : List (P × Op V)}
    (h : run (State.callAlone fuel) s calls = some t) : Reachable State.step s t := by
  induction calls generalizing s with
  | nil => exact ⟨[], h⟩
  | cons c calls ih =>
    obtain ⟨u, hu, hrun⟩ := run_cons_eq_some.1 h
    obtain ⟨n, hn⟩ := callAlone_run hu
    obtain ⟨as, has⟩ := ih hrun
    exact ⟨_, run_append_eq_some.2 ⟨u, hn, has⟩⟩

end Finish

/-! ### The list and what it answers -/

/-- The list after a call, and the result of the call. -/
def answer (l : Lifo V) : Op V → Lifo V × Ret V
  | .attach _ => (l, .attach true)
  | .push val =>
    match l.push? val with
    | some l' => (l', .push val 0)
    | none => (l, .push val (-1))
  | .pop =>
    match l.pop? with
    | some (val, l') => (l', .pop (some val) 0)
    | none => (l, .pop none (-1))
  | .printAll => (l, .printAll 0)
  | .getSize => (l, .getSize l.cap)
  | .getCount => (l, .getCount l.items.length)
  | .setWait _ _ => (l, .setWait 0)

theorem answer_push_of_none {l : Lifo V} {v : V} (h : l.push? v = none) : answer l (.push v) = (l, .push v (-1)) := by
  simp only [answer, h]

theorem answer_push_of_some {l l' : Lifo V} {v : V} (h : l.push? v = some l') :
    answer l (.push v) = (l', .push v 0) := by
  simp only [answer, h]

theorem answer_pop_of_none {l : Lifo V} (h : l.pop? = none) : answer l .pop = (l, .pop none (-1)) := by
  simp only [answer, h]

theorem answer_pop_of_some {l l' : Lifo V} {v : V} (h : l.pop? = some (v, l')) :
    answer l .pop = (l', .pop (some v) 0) := by
  simp only [answer, h]

/-- An answer does not change the capacity. -/
theorem answer_cap (l : Lifo V) (op : Op V) : (answer l op).1.cap = l.cap := by
  cases op with
  | push v =>
    cases h : l.push? v with
    | none => rw [answer_push_of_none h]
    | some l' =>
      rw [answer_push_of_some h]
      exact (Lifo.push?_eq_some.1 h).2.1
  | pop =>
    cases h : l.pop? with
    | none => rw [answer_pop_of_none h]
    | some vl =>
      rw [answer_pop_of_some h]
      exact (Lifo.pop?_eq_some.1 h).1
  | _ => rfl

/-- The processes that hold a stack pointer after a call. -/
def attachedBy (att : List P) : P × Op V → List P
  | (p, .attach _) => p :: att
  | _ => att

/-- A call that keeps to the contract of the interface: it is made on a stack pointer that this process has got, an
attach asks for no more than there is (`size` is passed on as a `size_t`, where a negative number is larger than any
segment), and the wait mode is -1 or 1. -/
def CallOk (size : Int) (att : List P) : P × Op V → Prop
  | (_, .attach sz) => 0 ≤ sz ∧ sz ≤ size
  | (p, .setWait val _) => p ∈ att ∧ (val = -1 ∨ val = 1)
  | (_, .printAll) => False
  | (p, _) => p ∈ att

def CallsOk (size : Int) : List P → List (P × Op V) → Prop
  | _, [] => True
  | att, c :: calls => CallOk size att c ∧ CallsOk size (attachedBy att c) calls

/-- Neither a segment nor a set of semaphores exists, and every process is outside all calls. -/
def noStack (shmId semId : Int) : State P V := ⟨⟨none, none, shmId, semId⟩, fun _ => ⟨none, .idle⟩, []⟩

/-! ### Where the list is kept -/

/-- A stack pointer for the stack `b` in one of the wait modes that return. -/
def Base.Handle (b : Base) (stack : StackT) : Prop := b.Attached stack ∧ (stack.wait = -1 ∨ stack.wait = 1)

/-- The semaphores and the slots hold the list. -/
structure Holds (l : Lifo V) (val : Nat → Int) (slot : Nat → V) : Prop where
  cap : val 0 = l.cap
  count : val 1 = l.items.length
  mutex : val 2 = 1
  slots : (List.range l.items.length).map slot = l.items.reverse

/-- The state is at rest and its kernel holds the list; the processes `att` can use it. -/
structure Represents (b : Base) (att : List P) (l : Lifo V) (s : State P V) : Prop where
  kernel : ∃ val slot, s.kernel = b.kernel val slot ∧ Holds l val slot
  quiescent : Quiescent s
  attached : ∀ p ∈ att, ∃ stack, (s.proc p).stack = some stack ∧ b.Handle stack

/-- The stack `b` has room for `size` values. -/
structure Base.Fits (b : Base) (size : Int) : Prop where
  shmId_pos : 0 < b.shmId
  segSize : b.segSize = size
  size_le : size ≤ semvmx
  inSegment : InSegment size (size - 1)

theorem InSegment.of_le {size i j : Int} (h : InSegment size j) (hi : 0 ≤ i) (hij : i ≤ j) : InSegment size i := by
  obtain ⟨-, hj⟩ := h
  refine ⟨hi, ?_⟩
  unfold ptrSize at hj ⊢
  omega

theorem Base.Fits.slot {b : Base} {size i : Int} (h : b.Fits size) (hi : 0 ≤ i) (hlt : i < size) :
    InSegment b.segSize i := by
  rw [h.segSize]
  exact h.inSegment.of_le hi (by omega)

theorem Holds.push {l l' : Lifo V} {val : Nat → Int} {slot : Nat → V} {v : V} (h : Holds l val slot)
    (hpush : l.push? v = some l') :
    Holds l' (Function.update (Function.update (Function.update val 2 0) 1 (val 1 + 1)) 2 1)
      (Function.update slot (val 1).toNat v) := by
  obtain ⟨-, hcap, hitems⟩ := Lifo.push?_eq_some.1 hpush
  have hcount := h.count
  refine ⟨by simpa [hcap] using h.cap, by simp [hitems, hcount], by simp, ?_⟩
  have hbelow : (List.range l.items.length).map (Function.update slot l.items.length v) = l.items.reverse := by
    rw [← h.slots]
    refine List.map_congr_left fun i hi => Function.update_of_ne ?_ _ _
    exact Nat.ne_of_lt (List.mem_range.1 hi)
  rw [hcount, Int.toNat_natCast, hitems, List.length_cons, List.range_succ, List.map_append, hbelow]
  simp

theorem Holds.pop {l l' : Lifo V} {val : Nat → Int} {slot : Nat → V} {v : V} (h : Holds l val slot)
    (hpop : l.pop? = some (v, l')) :
    slot (val 1 - 1).toNat = v ∧
      Holds l' (Function.update (Function.update (Function.update val 2 0) 1 (val 1 - 1)) 2 1) slot := by
  obtain ⟨hcap, hitems⟩ := Lifo.pop?_eq_some.1 hpop
  have hcount := h.count
  have hslots := h.slots
  rw [hitems, List.length_cons] at hcount
  rw [hitems, List.length_cons, List.range_succ, List.map_append, List.reverse_cons] at hslots
  obtain ⟨hrest, htop⟩ := List.append_inj' hslots rfl
  have hlen : (val 1 - 1).toNat = l'.items.length := by omega
  rw [List.map_singleton, List.singleton_inj] at htop
  refine ⟨by rw [hlen, htop], ?_, ?_, by simp, hrest⟩
  · simpa [hcap] using h.cap
  · simp [hcount]

/-! ### The kernel of an existing stack, forwards -/

theorem Base.semop_of_le (b : Base) (val : Nat → Int) (slot : Nat → V) (n : Nat) (op : Int) (hn : n < 3) (hop : op ≠ 0)
    (hpos : 0 ≤ val n + op) (hmax : val n + op ≤ semvmx) :
    (b.kernel val slot).semop b.semId ⟨n, op⟩ = some (b.kernel (Function.update val n (val n + op)) slot) := by
  rw [b.semop_kernel val slot hn hop, if_neg (by omega), if_neg (by omega)]

/-- A free mutex can be taken. -/
theorem Base.semop_lock_of_free (b : Base) (val : Nat → Int) (slot : Nat → V) (hval : val 2 = 1) :
    (b.kernel val slot).semop b.semId lockBuf = some (b.kernel (Function.update val 2 0) slot) := by
  have h := b.semop_of_le val slot 2 (-1) (by omega) (by omega) (by omega) (by rw [hval]; decide)
  rwa [hval] at h

/-- A mutex that is held can be released. -/
theorem Base.semop_unlock_of_held (b : Base) (val : Nat → Int) (slot : Nat → V) (hval : val 2 = 0) :
    (b.kernel val slot).semop b.semId ⟨2, 1⟩ = some (b.kernel (Function.update val 2 1) slot) := by
  have h := b.semop_of_le val slot 2 1 (by omega) (by omega) (by omega) (by rw [hval]; decide)
  rwa [hval] at h

theorem Base.load_of_inSegment {b : Base} (val : Nat → Int) (slot : Nat → V) {i : Int} (h : InSegment b.segSize i) :
    (b.kernel val slot).load b.shmId i = some (slot i.toNat) := by
  simp [Base.kernel, Kernel.load, h]

theorem Base.store_of_inSegment {b : Base} (val : Nat → Int) (slot : Nat → V) {i : Int} (v : V)
    (h : InSegment b.segSize i) :
    (b.kernel val slot).store b.shmId i v = some (b.kernel val (Function.update slot i.toNat v)) := by
  simp [Base.kernel, Kernel.store, h]

theorem Base.setval_kernel (b : Base) (val : Nat → Int) (slot : Nat → V) {n : Nat} (hn : n < 3) {v : Int}
    (hpos : 0 ≤ v) (hmax : v ≤ semvmx) :
    (b.kernel val slot).setval b.semId n v = b.kernel (Function.update val n v) slot := by
  simp [Base.kernel, Kernel.setval, Kernel.semSet, Option.filter, hn, hpos, hmax]

/-! ### Each call, run alone -/

section Calls

variable [Zero V] {b : Base} {l l' : Lifo V} {val : Nat → Int} {slot : Nat → V} {stack : StackT} {v : V} {fuel : Nat}

private theorem finish_push_full (hst : b.Handle stack) (hh : Holds l val slot) (hfull : l.push? v = none) :
    Proc.finish (fuel + 4) (b.kernel val slot) ⟨some stack, Op.start (.push v)⟩ =
      some (b.kernel val slot, ⟨some stack, .idle⟩, .push v (-1)) := by
  obtain ⟨⟨hsem, -⟩, hwait⟩ := hst
  have hcount : val 1 = val 0 := by
    rw [hh.cap, hh.count, Lifo.push?_eq_none.1 hfull]
  have hsize : Proc.step (b.kernel val slot) ⟨some stack, .push v .size⟩ =
      some (b.kernel val slot, ⟨some stack, .push v (.count (val 0))⟩, none) := by
    simp [Proc.step, pushStep, Next.resume, hsem]
  rw [Op.start, Proc.finish_goto hsize]
  rcases hwait with hwait | hwait
  · exact Proc.finish_ret (by simp [Proc.step, pushStep, pushTest, Next.resume, hsem, hcount, hwait])
  · have htest : Proc.step (b.kernel val slot) ⟨some stack, .push v (.count (val 0))⟩ =
        some (b.kernel val slot, ⟨some stack, .push v (.nanosleep (val 0) lockBuf)⟩, none) := by
      simp [Proc.step, pushStep, pushTest, Next.resume, hsem, hcount, hwait]
    have hsleep : Proc.step (b.kernel val slot) ⟨some stack, .push v (.nanosleep (val 0) lockBuf)⟩ =
        some (b.kernel val slot, ⟨some stack, .push v (.recount (val 0) lockBuf)⟩, none) := rfl
    rw [Proc.finish_goto htest, Proc.finish_goto hsleep]
    exact Proc.finish_ret (by simp [Proc.step, pushStep, Next.resume, hsem, hcount])

theorem push_size_step (hst : b.Attached stack) :
    Proc.step (b.kernel val slot) ⟨some stack, .push v .size⟩ =
      some (b.kernel val slot, ⟨some stack, .push v (.count (val 0))⟩, none) := by
  simp [Proc.step, pushStep, Next.resume, hst.1]

theorem push_count_step (hst : b.Attached stack) (hne : val 1 ≠ val 0) :
    Proc.step (b.kernel val slot) ⟨some stack, .push v (.count (val 0))⟩ =
      some (b.kernel val slot, ⟨some stack, .push v (.lock (val 1) lockBuf)⟩, none) := by
  simp [Proc.step, pushStep, pushTest, Next.resume, hst.1, hne]

theorem push_lock_step (hst : b.Attached stack) (hmutex : val 2 = 1) (count : Int) :
    Proc.step (b.kernel val slot) ⟨some stack, .push v (.lock count lockBuf)⟩ =
      some (b.kernel (Function.update val 2 0) slot, ⟨some stack, .push v (.write count lockBuf)⟩, none) := by
  have hop := b.semop_lock_of_free val slot hmutex
  simp [Proc.step, pushStep, Next.resume, hst.1, hop]

private theorem finish_push_room (hmax : (l.cap : Int) ≤ semvmx) (hin : InSegment b.segSize (val 1))
    (hst : b.Handle stack) (hh : Holds l val slot) (hroom : l.items.length < l.cap) :
    Proc.finish (fuel + 6) (b.kernel val slot) ⟨some stack, Op.start (.push v)⟩ =
      some (b.kernel (Function.update (Function.update (Function.update val 2 0) 1 (val 1 + 1)) 2 1)
        (Function.update slot (val 1).toNat v), ⟨some stack, .idle⟩, .push v 0) := by
  have hatt := hst.1
  obtain ⟨⟨hsem, hshm⟩, -⟩ := hst
  have hcap := hh.cap
  have hcount := hh.count
  have hne : val 1 ≠ val 0 := by omega
  -- the mutex is free, and the kernels after it are named by what has changed
  let val₁ := Function.update val 2 0
  let slot₁ := Function.update slot (val 1).toNat v
  let val₂ := Function.update val₁ 1 (val 1 + 1)
  have hwrite : Proc.step (b.kernel val₁ slot) ⟨some stack, .push v (.write (val 1) lockBuf)⟩ =
      some (b.kernel val₁ slot₁, ⟨some stack, .push v (.incr ⟨1, 1⟩)⟩, none) := by
    simp [Proc.step, pushStep, Next.resume, hshm, Base.store_of_inSegment val₁ slot v hin, slot₁]
  have hincr : Proc.step (b.kernel val₁ slot₁) ⟨some stack, .push v (.incr ⟨1, 1⟩)⟩ =
      some (b.kernel val₂ slot₁, ⟨some stack, .push v (.unlock ⟨2, 1⟩)⟩, none) := by
    have hval : val₁ 1 = val 1 := rfl
    have hop := b.semop_of_le val₁ slot₁ 1 1 (by omega) (by omega) (by omega) (by omega)
    rw [hval] at hop
    simp [Proc.step, pushStep, Next.resume, hsem, hop, val₂]
  have hunlock : Proc.step (b.kernel val₂ slot₁) ⟨some stack, .push v (.unlock ⟨2, 1⟩)⟩ =
      some (b.kernel (Function.update val₂ 2 1) slot₁, ⟨some stack, .idle⟩, some (.push v 0)) := by
    have hop := b.semop_unlock_of_held val₂ slot₁ rfl
    simp [Proc.step, pushStep, Next.resume, hsem, hop]
  rw [Op.start, Proc.finish_goto (push_size_step hatt), Proc.finish_goto (push_count_step hatt hne),
    Proc.finish_goto (push_lock_step hatt hh.mutex (val 1)), Proc.finish_goto hwrite, Proc.finish_goto hincr,
    Proc.finish_ret hunlock]

private theorem finish_pop_empty (hst : b.Handle stack) (hh : Holds l val slot) (hempty : l.pop? = none) :
    Proc.finish (fuel + 3) (b.kernel val slot) ⟨some stack, Op.start .pop⟩ =
      some (b.kernel val slot, ⟨some stack, .idle⟩, .pop none (-1)) := by
  obtain ⟨⟨hsem, -⟩, hwait⟩ := hst
  have hcount : val 1 = 0 := by
    rw [hh.count, Lifo.pop?_eq_none.1 hempty]
    rfl
  rw [Op.start]
  rcases hwait with hwait | hwait
  · exact Proc.finish_ret (by simp [Proc.step, popStep, popTest, Next.resume, hsem, hcount, hwait])
  · have htest : Proc.step (b.kernel val slot) ⟨some stack, .pop .count⟩ =
        some (b.kernel val slot, ⟨some stack, .pop (.nanosleep lockBuf)⟩, none) := by
      simp [Proc.step, popStep, popTest, Next.resume, hsem, hcount, hwait]
    have hsleep : Proc.step (b.kernel val slot) ⟨some stack, .pop (.nanosleep lockBuf)⟩ =
        some (b.kernel val slot, ⟨some stack, .pop (.recount lockBuf)⟩, none) := rfl
    rw [Proc.finish_goto htest, Proc.finish_goto hsleep]
    exact Proc.finish_ret (by simp [Proc.step, popStep, Next.resume, hsem, hcount])

private theorem finish_pop_top (hfit : b.Fits l.cap) (hst : b.Handle stack) (hh : Holds l val slot)
    (hpop : l.pop? = some (v, l')) :
    Proc.finish (fuel + 5) (b.kernel val slot) ⟨some stack, Op.start .pop⟩ =
      some (b.kernel (Function.update (Function.update (Function.update val 2 0) 1 (val 1 - 1)) 2 1) slot,
        ⟨some stack, .idle⟩, .pop (some v) 0) := by
  obtain ⟨⟨hsem, hshm⟩, -⟩ := hst
  obtain ⟨-, hitems⟩ := Lifo.pop?_eq_some.1 hpop
  have hcap := hh.cap
  have hcount := hh.count
  have hle := l.length_le
  have hmax := hfit.size_le
  have htop := (hh.pop hpop).1
  rw [hitems, List.length_cons] at hcount hle
  have hne : val 1 ≠ 0 := by omega
  have htest : Proc.step (b.kernel val slot) ⟨some stack, .pop .count⟩ =
      some (b.kernel val slot, ⟨some stack, .pop (.lock (val 1) lockBuf)⟩, none) := by
    simp [Proc.step, popStep, popTest, Next.resume, hsem, hne]
  let val₁ := Function.update val 2 0
  let val₂ := Function.update val₁ 1 (val 1 - 1)
  have hlock : Proc.step (b.kernel val slot) ⟨some stack, .pop (.lock (val 1) lockBuf)⟩ =
      some (b.kernel val₁ slot, ⟨some stack, .pop (.read (val 1) lockBuf)⟩, none) := by
    have hop := b.semop_lock_of_free val slot hh.mutex
    simp [Proc.step, popStep, Next.resume, hsem, hop, val₁]
  have hread : Proc.step (b.kernel val₁ slot) ⟨some stack, .pop (.read (val 1) lockBuf)⟩ =
      some (b.kernel val₁ slot, ⟨some stack, .pop (.decr v ⟨1, -1⟩)⟩, none) := by
    have hload : (b.kernel val₁ slot).load b.shmId (val 1 - 1) = some v := by
      rw [Base.load_of_inSegment val₁ slot (hfit.slot (by omega) (by omega)), htop]
    simp [Proc.step, popStep, Next.resume, hshm, hload]
  have hdecr : Proc.step (b.kernel val₁ slot) ⟨some stack, .pop (.decr v ⟨1, -1⟩)⟩ =
      some (b.kernel val₂ slot, ⟨some stack, .pop (.unlock v ⟨2, 1⟩)⟩, none) := by
    have hval : val₁ 1 = val 1 := rfl
    have hop := b.semop_of_le val₁ slot 1 (-1) (by omega) (by omega) (by omega) (by omega)
    rw [hval] at hop
    simp [Proc.step, popStep, Next.resume, hsem, hop, val₂, Int.sub_eq_add_neg]
  have hunlock : Proc.step (b.kernel val₂ slot) ⟨some stack, .pop (.unlock v ⟨2, 1⟩)⟩ =
      some (b.kernel (Function.update val₂ 2 1) slot, ⟨some stack, .idle⟩, some (.pop (some v) 0)) := by
    have hop := b.semop_unlock_of_held val₂ slot rfl
    simp [Proc.step, popStep, Next.resume, hsem, hop]
  rw [Op.start, Proc.finish_goto htest, Proc.finish_goto hlock, Proc.finish_goto hread, Proc.finish_goto hdecr,
    Proc.finish_ret hunlock]

/-- An attach that finds the stack: it gets a pointer with wait mode -1 and sets the free mutex free. -/
theorem finish_attach_old {sz : Int} {q : Option StackT} (hpos : 0 < b.shmId) (hsz : 0 ≤ sz) (hle : sz ≤ b.segSize) :
    Proc.finish (fuel + 6) (b.kernel val slot) ⟨q, Op.start (.attach sz)⟩ =
      some (b.kernel (Function.update val 2 1) slot, ⟨some ⟨b.shmId, -1, b.semId, b.shmId, ⟨0, 0⟩⟩, .idle⟩,
        .attach true) := by
  have hget : ∀ flg : IpcFlg, flg.excl = false ∨ flg.creat = false →
      (b.kernel val slot).shmget sz flg = (b.kernel val slot, b.shmId) := by
    intro flg hflg
    have hflg' : (flg.creat && flg.excl) = false := by
      rcases hflg with h | h <;> simp [h]
    simp [Base.kernel, Kernel.shmget, hflg', Int.not_lt.2 hsz, Int.not_lt.2 hle]
  have hsem : (b.kernel val slot).semget 3 ipcExcl = (b.kernel val slot, b.semId) := by
    simp [Base.kernel, Kernel.semget, ipcExcl]
  have hset := b.setval_kernel val slot (n := 2) (by omega) (v := 1) (by omega) (by decide)
  have hat : (b.kernel (Function.update val 2 1) slot).shmat b.shmId = b.shmId := by
    simp [Base.kernel, Kernel.shmat]
  simp [Op.start, Proc.finish, Proc.step, attachStep, hget ipcExcl (.inr rfl), hget ipcCreat (.inl rfl), hpos, hsem,
    hset, hat, Int.not_le.2 hpos]

/-- The attach that makes the stack. -/
theorem finish_attach_new {shmId sz : Int} (hpos : 0 < shmId) (hsz : 0 < sz) (hmax : sz ≤ semvmx) (semId : Int)
    (q : Option StackT) (n : Nat) :
    ∃ val, Proc.finish (n + 8) (⟨none, none, shmId, semId⟩ : Kernel V) ⟨q, Op.start (.attach sz)⟩ =
      some (Base.kernel ⟨shmId, sz, semId, shmId, semId⟩ val fun _ => 0,
        ⟨some ⟨shmId, -1, semId, shmId, ⟨0, 0⟩⟩, .idle⟩, .attach true) ∧
      Holds (Lifo.empty V sz.toNat) val fun _ => 0 := by
  let b : Base := ⟨shmId, sz, semId, shmId, semId⟩
  let val₁ : Nat → Int := Function.update (fun _ => 0) 0 sz
  let val₂ := Function.update val₁ 1 0
  let val₃ := Function.update val₂ 2 1
  refine ⟨val₃, ?_, ?_⟩
  · have hfresh : (⟨none, none, shmId, semId⟩ : Kernel V).shmget sz ipcCreat =
        (⟨some ⟨shmId, sz, fun _ => 0⟩, none, shmId, semId⟩, shmId) := by
      simp [Kernel.shmget, ipcCreat, Int.not_le.2 hsz]
    have hsem : (⟨some ⟨shmId, sz, fun _ => 0⟩, none, shmId, semId⟩ : Kernel V).semget 3 ipcCreat =
        (b.kernel (fun _ => 0) fun _ => 0, semId) := by
      simp [Kernel.semget, ipcCreat, Base.kernel, b]
    have hsize : (b.kernel (fun _ => 0) fun _ => (0 : V)).setval semId 0 sz = b.kernel val₁ fun _ => 0 :=
      b.setval_kernel _ _ (by omega) (by omega) hmax
    have hcount : (b.kernel val₁ fun _ => (0 : V)).setval semId 1 0 = b.kernel val₂ fun _ => 0 :=
      b.setval_kernel _ _ (by omega) (by omega) (by decide)
    have hmutex : (b.kernel val₂ fun _ => (0 : V)).setval semId 2 1 = b.kernel val₃ fun _ => 0 :=
      b.setval_kernel _ _ (by omega) (by omega) (by decide)
    have hat : (b.kernel val₃ fun _ => (0 : V)).shmat shmId = shmId := by
      simp [Base.kernel, Kernel.shmat, b]
    have hprobe : (⟨none, none, shmId, semId⟩ : Kernel V).shmget sz ipcExcl = (⟨none, none, shmId, semId⟩, -1) := by
      simp [Kernel.shmget, ipcExcl]
    simp [Op.start, Proc.finish, Proc.step, attachStep, hprobe, hfresh, hsem, hsize, hcount, hmutex, hat,
      Int.not_le.2 hpos, b]
  · refine ⟨?_, rfl, rfl, rfl⟩
    have hval : val₃ 0 = sz := rfl
    rw [hval, Lifo.cap_empty, Int.toNat_of_nonneg (by omega)]

end Calls

/-! ### Whole sequences -/

section Sequence

variable [Zero V] [DecidableEq P] {b : Base} {att : List P} {l l' : Lifo V} {s : State P V} {fuel : Nat}

/-- A call that has run leads from one representing state to the next. -/
private theorem represents_after {att' : List P} {p : P} {op : Op V} {val' : Nat → Int} {slot' : Nat → V}
    {stack' : StackT} {r : Ret V} (hs : Represents b att l s) (hatt : ∀ x ∈ att', x = p ∨ x ∈ att)
    (hfin : Proc.finish fuel s.kernel ⟨(s.proc p).stack, op.start⟩ =
      some (b.kernel val' slot', ⟨some stack', .idle⟩, r))
    (hh : Holds l' val' slot') (hst : b.Handle stack') :
    ∃ t, s.callAlone fuel (p, op) = some t ∧ Represents b att' l' t ∧ t.log = s.log ++ [(p, r)] := by
  have hidle := hs.quiescent p
  refine ⟨⟨b.kernel val' slot', Function.update s.proc p ⟨some stack', .idle⟩, s.log ++ [(p, r)]⟩, ?_, ⟨?_, ?_, ?_⟩,
    rfl⟩
  · simp [State.callAlone, hidle, hfin]
  · exact ⟨val', slot', rfl, hh⟩
  · intro x
    by_cases hx : x = p
    · simp [hx]
    · simpa [hx] using hs.quiescent x
  · intro x hmem
    by_cases hx : x = p
    · exact ⟨stack', by simp [hx], hst⟩
    · obtain ⟨stack, hstack⟩ := hs.attached x ((hatt x hmem).resolve_left hx)
      exact ⟨stack, by simpa [hx] using hstack⟩

/-- A push whose slot lies in the segment. -/
theorem callAlone_push {p : P} {v : V} (hmax : (l.cap : Int) ≤ semvmx) (hs : Represents b att l s) (hp : p ∈ att)
    (hin : InSegment b.segSize l.items.length) (hpush : l.push? v = some l') :
    ∃ t, s.callAlone (fuel + 6) (p, .push v) = some t ∧ Represents b att l' t ∧ t.log = s.log ++ [(p, .push v 0)] := by
  obtain ⟨val, slot, hk, hh⟩ := hs.kernel
  obtain ⟨stack, hstack, hst⟩ := hs.attached p hp
  refine represents_after hs (fun x hx => .inr hx) ?_ (hh.push hpush) hst
  rw [hk, hstack]
  rw [← hh.count] at hin
  exact finish_push_room hmax hin hst hh (Lifo.push?_eq_some.1 hpush).1

/-- One call keeps the relation between the state and the list, and returns what the list answers. -/
theorem callAlone_represents {c : P × Op V} (hfit : b.Fits l.cap) (hs : Represents b att l s)
    (hc : CallOk l.cap att c) :
    ∃ t, s.callAlone (fuel + 8) c = some t ∧ Represents b (attachedBy att c) (answer l c.2).1 t ∧
      t.log = s.log ++ [(c.1, (answer l c.2).2)] := by
  obtain ⟨p, op⟩ := c
  obtain ⟨val, slot, hk, hh⟩ := hs.kernel
  cases op with
  | attach sz =>
    obtain ⟨hsz, hle⟩ := hc
    -- the mutex is free already, so setting it to 1 changes nothing
    have hval : Function.update val 2 1 = val := by
      rw [← hh.mutex, Function.update_eq_self]
    have hst : b.Handle ⟨b.shmId, -1, b.semId, b.shmId, ⟨0, 0⟩⟩ := ⟨⟨rfl, rfl⟩, .inl rfl⟩
    refine represents_after hs (fun x hx => List.mem_cons.1 hx) ?_ hh hst
    rw [hk, finish_attach_old hfit.shmId_pos hsz (by rw [hfit.segSize]; exact hle), hval]
    rfl
  | push v =>
    obtain ⟨stack, hstack, hst⟩ := hs.attached p hc
    cases hpush : l.push? v with
    | none =>
      rw [answer_push_of_none hpush]
      refine represents_after hs (fun x hx => .inr hx) ?_ hh hst
      rw [hk, hstack]
      exact finish_push_full hst hh hpush
    | some l' =>
      rw [answer_push_of_some hpush]
      have hroom := (Lifo.push?_eq_some.1 hpush).1
      exact callAlone_push hfit.size_le hs hc (hfit.slot (by omega) (by omega)) hpush
  | pop =>
    obtain ⟨stack, hstack, hst⟩ := hs.attached p hc
    cases hpop : l.pop? with
    | none =>
      rw [answer_pop_of_none hpop]
      refine represents_after hs (fun x hx => .inr hx) ?_ hh hst
      rw [hk, hstack]
      exact finish_pop_empty hst hh hpop
    | some vl =>
      rw [answer_pop_of_some hpop]
      refine represents_after hs (fun x hx => .inr hx) ?_ (hh.pop hpop).2 hst
      rw [hk, hstack]
      exact finish_pop_top hfit hst hh hpop
  | printAll => exact hc.elim
  | getSize =>
    obtain ⟨stack, hstack, hst⟩ := hs.attached p hc
    refine represents_after hs (fun x hx => .inr hx) ?_ hh hst
    rw [hk, hstack]
    exact Proc.finish_ret (by simp [Op.start, Proc.step, hst.1.1, hh.cap, answer])
  | getCount =>
    obtain ⟨stack, hstack, hst⟩ := hs.attached p hc
    refine represents_after hs (fun x hx => .inr hx) ?_ hh hst
    rw [hk, hstack]
    exact Proc.finish_ret (by simp [Op.start, Proc.step, hst.1.1, hh.count, answer])
  | setWait w tm =>
    obtain ⟨hatt, hw⟩ := hc
    obtain ⟨stack, hstack, hst⟩ := hs.attached p hatt
    let stack' : StackT := { stack with wait := w, timeout := if w = 1 then tm else stack.timeout }
    have hst' : b.Handle stack' := ⟨hst.1, hw⟩
    refine represents_after hs (fun x hx => .inr hx) ?_ hh hst'
    rw [hk, hstack]
    exact Proc.finish_ret rfl

private theorem run_represents {calls : List (P × Op V)} (hfit : b.Fits l.cap) (hs : Represents b att l s)
    (hc : CallsOk l.cap att calls) :
    ∃ t, run (State.callAlone (fuel + 8)) s calls = some t ∧ t.log = s.log ++ Linearization.answers answer l calls ∧
      Represents b (calls.foldl attachedBy att) (Linearization.after answer l calls) t := by
  induction calls generalizing s att l with
  | nil => exact ⟨s, rfl, (List.append_nil _).symm, hs⟩
  | cons c calls ih =>
    obtain ⟨hcall, hcalls⟩ := hc
    obtain ⟨u, hu, hrep, hulog⟩ := callAlone_represents hfit hs hcall
    have hcap := answer_cap l c.2
    rw [← hcap] at hfit hcalls
    obtain ⟨t, ht, htlog, hrep⟩ := ih hfit hrep hcalls
    refine ⟨t, run_cons_eq_some.2 ⟨u, hu, ht⟩, ?_, hrep⟩
    rw [htlog, hulog, List.append_assoc]
    rfl

/-- The first attach makes an empty stack. -/
private theorem callAlone_attach_new {shmId semId size : Int} (hid : 0 < shmId) (hsize : 0 < size)
    (hmax : size ≤ semvmx) (p : P) :
    ∃ t, (noStack shmId semId : State P V).callAlone (fuel + 8) (p, .attach size) = some t ∧
      Represents ⟨shmId, size, semId, shmId, semId⟩ [p] (Lifo.empty V size.toNat) t ∧ t.log = [(p, .attach true)] := by
  obtain ⟨val, hfin, hh⟩ := finish_attach_new (V := V) hid hsize hmax semId none fuel
  let b : Base := ⟨shmId, size, semId, shmId, semId⟩
  let stack : StackT := ⟨shmId, -1, semId, shmId, ⟨0, 0⟩⟩
  let q : Proc V := ⟨some stack, .idle⟩
  refine ⟨⟨b.kernel val fun _ => 0, Function.update (fun _ => ⟨none, .idle⟩) p q, [(p, .attach true)]⟩, ?_,
    ⟨⟨val, _, rfl, hh⟩, ?_, ?_⟩, rfl⟩
  · simp [State.callAlone, noStack, hfin, b, q, stack]
  · intro x
    by_cases hx : x = p <;> simp [hx, q]
  · intro x hx
    rw [List.mem_singleton] at hx
    exact ⟨stack, by simp [hx, q], ⟨rfl, rfl⟩, .inl rfl⟩

/-- Calls that do not overlap are answered by a bounded last-in-first-out list: the first attach makes a stack of
`size` slots, and from then on every call of every process that keeps to the contract returns what the list does and
leaves the stack with the values that the list has. -/
theorem run_answers (fuel : Nat) {shmId semId size : Int} (hid : 0 < shmId) (hsize : 1 ≤ size) (hmax : size ≤ 32767)
    (hseg : ∀ i, 0 ≤ i → i < size → InSegment size i) (p₀ : P) (calls : List (P × Op V))
    (hcalls : CallsOk size [p₀] calls) :
    ∃ t, run (State.callAlone (fuel + 8)) (noStack shmId semId) ((p₀, .attach size) :: calls) = some t ∧
      t.log = (p₀, .attach true) :: Linearization.answers answer (Lifo.empty V size.toNat) calls ∧
      Represents ⟨shmId, size, semId, shmId, semId⟩ (calls.foldl attachedBy [p₀])
        (Linearization.after answer (Lifo.empty V size.toNat) calls) t := by
  have hcap : ((Lifo.empty V size.toNat).cap : Int) = size := by
    rw [Lifo.cap_empty, Int.toNat_of_nonneg (by omega)]
  let b : Base := ⟨shmId, size, semId, shmId, semId⟩
  have hfit : b.Fits (Lifo.empty V size.toNat).cap := by
    rw [hcap]
    exact ⟨hid, rfl, hmax, hseg _ (by omega) (by omega)⟩
  obtain ⟨u, hu, hrep, hulog⟩ := callAlone_attach_new (V := V) hid (by omega) hmax p₀
  rw [← hcap] at hcalls
  obtain ⟨t, ht, htlog, hrep⟩ := run_represents hfit hrep hcalls
  refine ⟨t, run_cons_eq_some.2 ⟨u, hu, ht⟩, ?_, hrep⟩
  rw [htlog, hulog]
  rfl

/-- Two processes on a stack of two slots: the third push fails, also after a wait, and the values come back in
reverse. -/
theorem run_answers_two_slots :
    ∃ t, run (State.callAlone 8) (noStack 1 1 : State Bool Nat) [(true, .attach 2), (true, .push 7),
        (false, .attach 1), (false, .push 8), (false, .setWait 1 ⟨0, 5⟩), (false, .push 9), (true, .pop),
        (false, .pop), (false, .pop), (true, .getCount)] = some t ∧
      t.log = [(true, .attach true), (true, .push 7 0), (false, .attach true), (false, .push 8 0),
        (false, .setWait 0), (false, .push 9 (-1)), (true, .pop (some 8) 0), (false, .pop (some 7) 0),
        (false, .pop none (-1)), (true, .getCount 0)] ∧
      Represents ⟨1, 2, 1, 1, 1⟩ [false, true] (Lifo.empty Nat 2) t :=
  run_answers 0 (by decide) (by decide) (by decide)
    (fun i _ _ => ⟨by assumption, by simp only [ptrSize, segmentBytes, pageSize]; omega⟩) true _
    (by simp [CallsOk, CallOk, attachedBy])

end Sequence

end UnixTasks.ShStack
