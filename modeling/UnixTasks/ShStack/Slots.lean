import UnixTasks.ShStack.Contents
import UnixTasks.ShStack.Sequential

/-!
# The slots of a stack and the bytes of its segment

`attach_stack` uses one number twice: as the bytes of the segment and as the number of values, of eight bytes each, that
semaphore 0 allows.  The kernel rounds the bytes up to whole pages, so up to 512 values have room in the first page, and
for larger numbers the calls reach slots behind the segment.

* (`Fresh`) while calls do not overlap, the count that a call has read is still that of semaphore 1;
* (`slot_lt_of_explained`) then the slots that `push` and `pop` access are those below the capacity;
* (`reaches_every_count`) and all of these are reached;
* (`slots_iff`) the sizes for which they lie in the segment.
-/

namespace UnixTasks.ShStack

open ActionSystem

variable {P V : Type}

/-- The slot that `push` or `pop` accesses with its next step. -/
def Pc.slot : Pc V → Option Int
  | .push _ (.write count _) => some count
  | .pop (.read count _) => some (count - 1)
  | _ => none

/-- A push or a pop begins when no call is in progress. -/
def NonOverlapping (s : State P V) : Action P V → Prop
  | .call _ (.push _) | .call _ .pop => Quiescent s
  | .call _ _ => False
  | .step _ => True

/-- A stack whose pointer every process has got from `attach_stack`; no call has been made yet. -/
def sharedStack (P : Type) (k : Kernel V) (stack : StackT) : State P V := ⟨k, fun _ => ⟨some stack, .idle⟩, []⟩

/-- The attach that makes a stack of the given size. -/
def Creates [Zero V] (size shmId semId : Int) (k : Kernel V) (stack : StackT) : Prop :=
  Proc.finish 8 (⟨none, none, shmId, semId⟩ : Kernel V) ⟨none, Op.start (.attach size)⟩ =
    some (k, ⟨some stack, .idle⟩, .attach true)

/-- Every slot that is accessed in a run of calls that do not overlap lies in the segment. -/
def SlotsInSegment [Zero V] [DecidableEq P] (size : Int) (s₀ : State P V) : Prop :=
  ∀ as s, AllSteps State.step NonOverlapping s₀ as → run State.step s₀ as = some s →
    ∀ p, ∀ i ∈ (s.proc p).pc.slot, InSegment size i

/-- At most one process is in a call, and a count that it is about to use is that of semaphore 1. -/
structure Fresh (s : State P V) : Prop where
  alone : ∀ p q, (s.proc p).pc ≠ .idle → (s.proc q).pc ≠ .idle → p = q
  count : ∀ p, ∀ count ∈ (s.proc p).pc.lockCount, count = s.kernel.semVal 1

section Steps

variable {b : Base} {val : Nat → Int} {slot : Nat → V} {stack : StackT} {pc : Pc V} {k : Kernel V} {q : Proc V}
  {r : Option (Ret V)}

/-- The count that a call reads. -/
private theorem look_lockCount [Zero V] (hst : b.Attached stack) (hwait : stack.wait = -1) (hok : PcOk pc)
    (hlocal : LocalOk (val 0) pc) (hin : pc.inside = false) (hl : pc.atLock = false)
    (hs : Proc.step (b.kernel val slot) ⟨some stack, pc⟩ = some (k, q, r)) :
    ∀ count ∈ q.pc.lockCount, count = val 1 := by
  have hcount : (b.kernel val slot).getval stack.sem 1 = val 1 := by
    rw [hst.1, b.getval_kernel val slot (by omega)]
  cases pc with
  | idle => cases hs
  | attach pc => exact hok.elim
  | setWait w tm => exact hlocal.elim
  | push v pc =>
    cases pc <;> simp only [Pc.inside, Pc.atLock, reduceCtorEq] at hin hl <;> simp only [LocalOk] at hlocal <;>
      simp only [Proc.step, pushStep, pushTest, hwait, hcount, Option.bind_some, Option.map_some, Option.some.injEq]
        at hs
    · cases hs
      intro count hc
      cases hc
    · split at hs <;> cases hs
      · intro count hc
        cases hc
      · intro count hc
        exact (Option.some.inj hc).symm
  | pop pc =>
    cases pc <;> simp only [Pc.inside, Pc.atLock, reduceCtorEq] at hin hl <;> simp only [LocalOk] at hlocal
    simp only [Proc.step, popStep, popTest, hwait, hcount, Option.bind_some, Option.map_some, Option.some.injEq] at hs
    split at hs <;> cases hs
    · intro count hc
      cases hc
    · intro count hc
      exact (Option.some.inj hc).symm
  | printAll pc =>
    cases pc <;> simp only [Pc.inside, Pc.atLock, reduceCtorEq] at hin hl <;>
      simp only [Proc.step, printStep, Option.bind_some, Option.map_some, Option.some.injEq] at hs <;>
      cases hs <;> intro count hc <;> cases hc
  | getSize | getCount =>
    simp only [Proc.step, Option.map_some, Option.some.injEq] at hs
    cases hs
    intro count hc
    cases hc

theorem InsideStep.lockCount {val' : Nat → Int} {slot' : Nat → V} {pc' : Pc V}
    (h : InsideStep b val slot pc val' slot' pc' r) : pc'.lockCount = none := by
  cases h <;> rfl

private theorem Pc.lockCount_locked (hl : pc.atLock = true) : pc.locked.lockCount = none := by
  cases pc with
  | push v pc | pop pc | printAll pc =>
    cases pc <;> simp only [Pc.atLock, Bool.false_eq_true] at hl
    rfl
  | _ => cases hl

private theorem Op.lockCount_start (op : Op V) : op.start.lockCount = none := by
  cases op <;> rfl

end Steps

/-! ### Calls that do not overlap -/

section System

variable {b : Base} {val : Nat → Int} {slot : Nat → V} {holder : Option P} {s t : State P V} {a : Action P V}
  {size : Int} {start : Multiset V}

/-- Only one process is in a call. -/
private theorem fresh_of_alone {p : P} (hother : ∀ x, x ≠ p → (s.proc x).pc = .idle)
    (hcount : ∀ count ∈ (s.proc p).pc.lockCount, count = s.kernel.semVal 1) : Fresh s where
  alone x y hx hy := by
    have hxp : x = p := by
      by_contra hne
      exact hx (hother x hne)
    have hyp : y = p := by
      by_contra hne
      exact hy (hother y hne)
    rw [hxp, hyp]
  count x count hc := by
    by_cases hx : x = p
    · rw [hx] at hc
      exact hcount count hc
    · rw [hother x hx] at hc
      cases hc

/-- The process has read no count. -/
private theorem fresh_of_lockCount {p : P} (hother : ∀ x, x ≠ p → (s.proc x).pc = .idle)
    (hnone : (s.proc p).pc.lockCount = none) : Fresh s := by
  refine fresh_of_alone hother fun count hcount => ?_
  rw [hnone] at hcount
  cases hcount

private theorem Fresh.idle_of_ne (h : Fresh s) {p x : P} (hp : (s.proc p).pc ≠ .idle) (hx : x ≠ p) :
    (s.proc x).pc = .idle := by
  by_contra hne
  exact hx (h.alone x p hne hp)

private theorem fresh_of_quiescent (h : Quiescent s) : Fresh s where
  alone x _ hx _ := absurd (h x) hx
  count x count hc := by
    rw [h x] at hc
    cases hc

/-- Calls that do not overlap use fresh counts. -/
private theorem Fresh.countFresh (h : Fresh s) (a : Action P V) : CountFresh s a := by
  cases a with
  | call p op => trivial
  | step p => exact h.count p

theorem NonOverlapping.access (ha : NonOverlapping s a) : a.access := by
  cases a with
  | call p op =>
    cases op with
    | push v => trivial
    | pop => trivial
    | _ => exact ha.elim
  | step p => trivial

/-- The slots that are accessed are those below the capacity. -/
theorem slot_lt_of_explained (h : Explained b size start s) (p : P) :
    ∀ i ∈ (s.proc p).pc.slot, 0 ≤ i ∧ i < size := by
  obtain ⟨val, slot, holder, hex, hc⟩ := h
  intro i hi
  have hpos := hex.count_nonneg
  have hle := hc.count_le
  have hledger := hc.ledger
  have hholder : (s.proc p).pc.inside = true → holder = some p := (hex.inside_iff p).1
  cases hpc : (s.proc p).pc with
  | push v pc =>
    rw [hpc] at hi hholder
    cases pc with
    | write count buf =>
      rw [hholder rfl, Option.map_some, hpc] at hledger
      obtain ⟨hcount, hlt, -⟩ := hledger
      obtain rfl : count = i := Option.some.inj hi
      omega
    | _ => cases hi
  | pop pc =>
    rw [hpc] at hi hholder
    cases pc with
    | read count buf =>
      rw [hholder rfl, Option.map_some, hpc] at hledger
      obtain ⟨hcount, hlt, -⟩ := hledger
      obtain rfl : count - 1 = i := Option.some.inj hi
      omega
    | _ => cases hi
  | _ =>
    rw [hpc] at hi
    cases hi

variable [Zero V] [DecidableEq P]

/-- A process that moves is in a call. -/
theorem pc_ne_idle {p : P} (hs : s.step (.step p) = some t) : (s.proc p).pc ≠ .idle := by
  intro hidle
  simp [State.step, Proc.step, hidle] at hs

theorem fresh_step (hex : Exclusive b val slot holder s) (hc : Contents size start val slot holder s) (h : Fresh s)
    (ha : NonOverlapping s a) (hs : s.step a = some t) : Fresh t := by
  cases a with
  | call p op =>
    have hquiet : Quiescent s := by
      cases op with
      | push v => exact ha
      | pop => exact ha
      | _ => exact ha.elim
    simp only [State.step] at hs
    split at hs <;> cases hs
    refine fresh_of_lockCount (p := p) (fun x hx => ?_) ?_
    · show (Function.update s.proc p _ x).pc = .idle
      rw [Function.update_of_ne hx]
      exact hquiet x
    · simp only [Function.update_self, op.lockCount_start]
  | step p =>
    have hp := pc_ne_idle hs
    have hidle : ∀ (q : Proc V) (x : P), x ≠ p → (Function.update s.proc p q x).pc = .idle := by
      intro q x hx
      rw [Function.update_of_ne hx]
      exact h.idle_of_ne hp hx
    obtain ⟨val', slot', holder', hm, -⟩ := exclusive_step (a := .step p) hex trivial hs
    cases hm with
    | look hin hl hlook hr =>
      rename_i q r
      refine fresh_of_alone (hidle q) ?_
      obtain ⟨stack, hstack, hst⟩ := hex.attached p
      have hproc : s.proc p = ⟨some stack, (s.proc p).pc⟩ := by rw [← hstack]
      have hlocal := hc.localOk p
      rw [← hc.cap] at hlocal
      rw [hproc, hex.kernel] at hlook
      have hread := look_lockCount hst (hc.wait p stack hstack) (hex.pcOk p) hlocal hin hl hlook
      simp only [Function.update_self]
      intro count hcount
      rw [hread count hcount, hex.kernel]
      rfl
    | lock hl hfree =>
      refine fresh_of_lockCount (hidle _) ?_
      simp only [Function.update_self, Pc.lockCount_locked hl]
    | inside hholder hinside =>
      refine fresh_of_lockCount (hidle _) ?_
      simp only [Function.update_self, hinside.lockCount]

/-- What a run of calls that do not overlap keeps. -/
def Kept (b : Base) (size : Int) (start : Multiset V) (s : State P V) : Prop := Explained b size start s ∧ Fresh s

theorem kept_step (hsize : size ≤ semvmx) (s : State P V) (a : Action P V) (t : State P V) (h : Kept b size start s)
    (ha : NonOverlapping s a) (hs : s.step a = some t) : Kept b size start t := by
  obtain ⟨hexp, hfresh⟩ := h
  refine ⟨explained_step hsize s a t hexp ⟨ha.access, hfresh.countFresh a⟩ hs, ?_⟩
  obtain ⟨val, slot, holder, hex, hc⟩ := hexp
  exact fresh_step hex hc hfresh ha hs

end System

/-! ### All counts are reached -/

section Pushes

variable [Zero V] [DecidableEq P] {b : Base} {att : List P} {l : Lifo V} {s s₀ : State P V} {p : P}

private theorem step_goto {k : Kernel V} {q : Proc V} (h : (s.proc p).step s.kernel = some (k, q, none)) :
    s.step (.step p) = some ⟨k, Function.update s.proc p q, s.log⟩ := by
  simp [State.step, h]

/-- A push on a stack that is not full comes to the slot behind the last value. -/
private theorem push_to_slot (hs : Represents b att l s) (hp : p ∈ att) (hroom : l.items.length < l.cap) (v : V) :
    ∃ t, run State.step s [.call p (.push v), .step p, .step p, .step p] = some t ∧
      (t.proc p).pc.slot = some (l.items.length : Int) := by
  obtain ⟨val, slot, hk, hh⟩ := hs.kernel
  obtain ⟨stack, hstack, hst, -⟩ := hs.attached p hp
  have hne : val 1 ≠ val 0 := by
    rw [hh.count, hh.cap]
    omega
  let place (pc : PushPc) : P → Proc V := Function.update s.proc p ⟨some stack, .push v pc⟩
  have hcall : s.step (.call p (.push v)) = some ⟨b.kernel val slot, place .size, s.log⟩ := by
    simp [State.step, hs.quiescent p, hstack, hk, Op.start, place]
  have hsize : State.step ⟨b.kernel val slot, place .size, s.log⟩ (.step p) =
      some ⟨b.kernel val slot, place (.count (val 0)), s.log⟩ := by
    rw [step_goto (k := b.kernel val slot) (q := ⟨some stack, .push v (.count (val 0))⟩)]
    · simp [place]
    · simpa [place] using push_size_step hst
  have hcount : State.step ⟨b.kernel val slot, place (.count (val 0)), s.log⟩ (.step p) =
      some ⟨b.kernel val slot, place (.lock (val 1) lockBuf), s.log⟩ := by
    rw [step_goto (k := b.kernel val slot) (q := ⟨some stack, .push v (.lock (val 1) lockBuf)⟩)]
    · simp [place]
    · simpa [place] using push_count_step hst hne
  have hlock : State.step ⟨b.kernel val slot, place (.lock (val 1) lockBuf), s.log⟩ (.step p) =
      some ⟨b.kernel (Function.update val 2 0) slot, place (.write (val 1) lockBuf), s.log⟩ := by
    rw [step_goto (k := b.kernel (Function.update val 2 0) slot) (q := ⟨some stack, .push v (.write (val 1) lockBuf)⟩)]
    · simp [place]
    · simpa [place] using push_lock_step hst hh.mutex (val 1)
  refine ⟨⟨b.kernel (Function.update val 2 0) slot, place (.write (val 1) lockBuf), s.log⟩, ?_, ?_⟩
  · rw [run_cons, hcall, Option.bind_some, run_cons, hsize, Option.bind_some, run_cons, hcount, Option.bind_some,
      run_cons, hlock, Option.bind_some, run_nil]
  · simp only [place, Function.update_self, Pc.slot, hh.count]

private theorem allSteps_push (hq : Quiescent s) (v : V) {as : List (Action P V)} (has : ∀ a ∈ as, a = .step p) :
    AllSteps State.step NonOverlapping s (.call p (.push v) :: as) := by
  refine ⟨hq, ?_⟩
  cases hs : s.step (.call p (.push v)) with
  | none => trivial
  | some t =>
    refine AllSteps.of_forall fun a ha u => ?_
    rw [has a ha]
    trivial

/-- If all slots lie in the segment, pushes fill the stack up to its capacity. -/
theorem reaches_every_count {size : Int} (hb : b.segSize = size) (hmax : size ≤ semvmx)
    (hslots : SlotsInSegment size s₀) (hs₀ : Represents b [p] l s₀) (hempty : l.items = [])
    (hcap : (l.cap : Int) = size) (n : Nat) (hn : (n : Int) ≤ size) :
    ∃ (as : List (Action P V)) (s : State P V) (l : Lifo V), AllSteps State.step NonOverlapping s₀ as ∧
      run State.step s₀ as = some s ∧ Represents b [p] l s ∧ (l.cap : Int) = size ∧ l.items.length = n := by
  induction n with
  | zero => exact ⟨[], s₀, l, trivial, rfl, hs₀, hcap, by rw [hempty]; rfl⟩
  | succ n ih =>
    obtain ⟨as, s, l, has, hrun, hs, hcap, hlen⟩ := ih (by omega)
    have hp : p ∈ [p] := List.mem_singleton.2 rfl
    have hroom : l.items.length < l.cap := by omega
    -- the next slot lies in the segment, so the push does not fault
    have hin : InSegment size n := by
      obtain ⟨t, ht, hslot⟩ := push_to_slot hs hp hroom (0 : V)
      have hall : AllSteps State.step NonOverlapping s₀ (as ++ [.call p (.push 0), .step p, .step p, .step p]) :=
        (allSteps_append hrun).2 ⟨has, allSteps_push hs.quiescent 0 (by simp)⟩
      rw [hlen] at hslot
      exact hslots _ t hall (run_append_eq_some.2 ⟨s, hrun, ht⟩) p n hslot
    obtain ⟨l', hpush⟩ : ∃ l', l.push? (0 : V) = some l' := by
      cases hpush : l.push? (0 : V) with
      | none =>
        have hfull := Lifo.push?_eq_none.1 hpush
        omega
      | some l' => exact ⟨l', rfl⟩
    obtain ⟨-, hcap', hitems⟩ := Lifo.push?_eq_some.1 hpush
    rw [← hb, ← hlen] at hin
    obtain ⟨u, hu, hrep, -⟩ : ∃ u, s.callAlone 6 (p, .push 0) = some u ∧ Represents b [p] l' u ∧ _ :=
      callAlone_push (by omega) hs hp hin hpush
    obtain ⟨m, hm⟩ := callAlone_run hu
    refine ⟨as ++ .call p (.push 0) :: List.replicate m (.step p), u, l', ?_, ?_, hrep, by omega, ?_⟩
    · exact (allSteps_append hrun).2 ⟨has, allSteps_push hs.quiescent 0 fun a ha => List.eq_of_mem_replicate ha⟩
    · exact run_append_eq_some.2 ⟨s, hrun, hm⟩
    · rw [hitems, List.length_cons, hlen]

end Pushes

/-! ### The sizes -/

section Sizes

variable [Zero V] {shmId semId size : Int} {k : Kernel V} {stack : StackT}

/-- Every value of a stack has its slot in the first page, or the last one does not fit. -/
theorem inSegment_iff (hsize : 1 ≤ size) : InSegment size (size - 1) ↔ size ≤ 512 := by
  unfold InSegment segmentBytes ptrSize pageSize
  omega

/-- The identifier of a stack that has been made is positive: otherwise the attach returns `NULL`. -/
theorem Creates.shmId_pos (h : Creates size shmId semId k stack) : 0 < shmId := by
  by_contra hid
  have hle : shmId ≤ 0 := by omega
  have hprobe : (⟨none, none, shmId, semId⟩ : Kernel V).shmget size ipcExcl = (⟨none, none, shmId, semId⟩, -1) := by
    simp [Kernel.shmget, ipcExcl]
  have hnew : ((⟨none, none, shmId, semId⟩ : Kernel V).shmget size ipcCreat).2 ≤ 0 := by
    by_cases hpos : size ≤ 0 <;> simp [Kernel.shmget, ipcCreat, hpos, hle]
  simp [Creates, Op.start, Proc.finish, Proc.step, attachStep, hprobe, hnew] at h

/-- What the attach that makes the stack leaves behind. -/
private theorem Creates.eq (hsize : 1 ≤ size) (hmax : size ≤ 32767) (h : Creates size shmId semId k stack) :
    ∃ val, k = Base.kernel ⟨shmId, size, semId, shmId, semId⟩ val (fun _ => 0) ∧
      stack = ⟨shmId, -1, semId, shmId, ⟨0, 0⟩⟩ ∧ Holds (Lifo.empty V size.toNat) val fun _ => 0 := by
  obtain ⟨val, hfin, hh⟩ := finish_attach_new (V := V) h.shmId_pos (by omega) hmax semId none 0
  rw [Creates, hfin] at h
  cases h
  exact ⟨val, rfl, rfl, hh⟩

variable [DecidableEq P]

/-- The calls keep to the slots below the capacity, so a stack of one page is enough for 512 of them. -/
private theorem slotsInSegment_of_le (hsize : 1 ≤ size) (hle : size ≤ 512) (hnew : Creates size shmId semId k stack) :
    SlotsInSegment size (sharedStack P k stack) := by
  obtain ⟨val, rfl, rfl, hh⟩ := hnew.eq hsize (by omega)
  let b : Base := ⟨shmId, size, semId, shmId, semId⟩
  have hcap : val 0 = size := by
    rw [hh.cap, Lifo.cap_empty, Int.toNat_of_nonneg (by omega)]
  have hcount : val 1 = 0 := hh.count
  have hready : Ready size (sharedStack P (b.kernel val fun _ => (0 : V)) ⟨shmId, -1, semId, shmId, ⟨0, 0⟩⟩) :=
    { base := ⟨b, val, fun _ => 0, rfl, hcap, by omega, by omega, hh.mutex, fun _ => ⟨_, rfl, ⟨rfl, rfl⟩, rfl⟩⟩
      size_le := by unfold semvmx; omega
      quiescent := fun _ => rfl
      log := rfl }
  intro as s has hrun p i hi
  obtain ⟨b', hexp⟩ := hready.explained
  have hkept : Kept b' size _ s :=
    run_invariant_of_good (kept_step hready.size_le) ⟨hexp, fresh_of_quiescent hready.quiescent⟩ has hrun
  obtain ⟨h0, hlt⟩ := slot_lt_of_explained hkept.1 p i hi
  exact ((inSegment_iff hsize).2 hle).of_le h0 (by omega)

/-- Pushes reach the last slot below the capacity. -/
private theorem le_of_slotsInSegment (p₀ : P) (hsize : 1 ≤ size) (hmax : size ≤ 32767)
    (hnew : Creates size shmId semId k stack) (hslots : SlotsInSegment size (sharedStack P k stack)) : size ≤ 512 := by
  obtain ⟨val, rfl, rfl, hh⟩ := hnew.eq hsize hmax
  let b : Base := ⟨shmId, size, semId, shmId, semId⟩
  have hseg : b.segSize = size := rfl
  have hcap : ((Lifo.empty V size.toNat).cap : Int) = size := by
    rw [Lifo.cap_empty, Int.toNat_of_nonneg (by omega)]
  have hs₀ : Represents b [p₀] (Lifo.empty V size.toNat)
      (sharedStack P (b.kernel val fun _ => 0) ⟨shmId, -1, semId, shmId, ⟨0, 0⟩⟩) :=
    ⟨⟨val, _, rfl, hh⟩, fun _ => rfl, fun _ _ => ⟨_, rfl, ⟨rfl, rfl⟩, .inl rfl⟩⟩
  obtain ⟨as, s, l, has, hrun, hs, hcap', hlen⟩ :=
    reaches_every_count hseg hmax hslots hs₀ rfl hcap (size - 1).toNat (by omega)
  obtain ⟨t, ht, hslot⟩ := push_to_slot hs (List.mem_singleton.2 rfl) (by omega) (0 : V)
  have hall : AllSteps State.step NonOverlapping _ (as ++ [.call p₀ (.push 0), .step p₀, .step p₀, .step p₀]) :=
    (allSteps_append hrun).2 ⟨has, allSteps_push hs.quiescent 0 (by simp)⟩
  have hin := hslots _ t hall (run_append_eq_some.2 ⟨s, hrun, ht⟩) p₀ _ hslot
  rw [hlen, Int.toNat_of_nonneg (by omega)] at hin
  exact (inSegment_iff hsize).1 hin

/-- All slots that calls of `push` and `pop` access, one call after the other, lie in the segment that `attach_stack`
has made for them if and only if the values fit in one page. -/
theorem slots_iff (p₀ : P) (hsize : 1 ≤ size) (hmax : size ≤ 32767) (hnew : Creates size shmId semId k stack) :
    SlotsInSegment size (sharedStack P k stack) ↔ size ≤ 512 :=
  ⟨le_of_slotsInSegment p₀ hsize hmax hnew, fun hle => slotsInSegment_of_le hsize hle hnew⟩

end Sizes

/-- The stack that the attach with the given size makes. -/
private theorem creates_new (size : Int) (hsize : 1 ≤ size) (hmax : size ≤ 32767) :
    ∃ (k : Kernel Nat) (stack : StackT), Creates size 1 2 k stack := by
  have hid : (0 : Int) < 1 := by decide
  obtain ⟨val, hfin, -⟩ := finish_attach_new (V := Nat) hid (by omega) hmax 2 none 0
  exact ⟨_, _, hfin⟩

theorem slots_iff_two : ∃ (k : Kernel Nat) (stack : StackT), Creates 2 1 2 k stack ∧
    (SlotsInSegment 2 (sharedStack Bool k stack) ↔ (2 : Int) ≤ 512) := by
  obtain ⟨k, stack, hnew⟩ := creates_new 2 (by decide) (by decide)
  exact ⟨k, stack, hnew, slots_iff true (by decide) (by decide) hnew⟩

/-- A stack of 513 values: the segment has 4096 bytes, and the last value would end at byte 4104. -/
theorem slots_outside : ∃ (k : Kernel Nat) (stack : StackT), Creates 513 1 2 k stack ∧
    ¬ SlotsInSegment 513 (sharedStack Bool k stack) := by
  obtain ⟨k, stack, hnew⟩ := creates_new 513 (by decide) (by decide)
  refine ⟨k, stack, hnew, fun hslots => ?_⟩
  have hle : (513 : Int) ≤ 512 := le_of_slotsInSegment true (by decide) (by decide) hnew hslots
  omega

end UnixTasks.ShStack
