import UnixTasks.Lib.Linearize
import UnixTasks.ShStack.Mutex
import UnixTasks.ShStack.Sequential

/-!
# Calls that overlap, in every wait mode

A call takes effect with its `semop` on semaphore 1, and a call that does not change semaphore 1 with the step in which
it returns.  When every call takes the mutex with a fresh count, the calls in this order are answered by the bounded
last-in-first-out list, whether a call that finds the stack full or empty gives up (wait mode -1), looks again for ever
(0) or looks again once (1).

* (`point`) the call that takes effect in a step;
* (`Linear`) the semaphores and the slots hold the list, and a call in the middle of its changes is prepared for them;
* (`stands_step`) one step keeps this and the books;
* (`stack_linearizable`) every run is a sequential history of the list.
-/

namespace UnixTasks.ShStack

open ActionSystem Linearization

variable {P V : Type}

/-- The wait modes of stack.h. -/
def WaitMode (w : Int) : Prop := w = -1 ∨ w = 0 ∨ w = 1

/-- A call other than an attach; a wait mode is one of stack.h. -/
def Action.uses : Action P V → Prop
  | .call _ (.attach _) => False
  | .call _ (.setWait w _) => WaitMode w
  | _ => True

/-! ### Where a call takes effect -/

/-- The call that a process is in. -/
def Pc.op : Pc V → Option (Op V)
  | .idle => none
  | .attach _ => none
  | .push val _ => some (.push val)
  | .pop _ => some .pop
  | .printAll _ => some .printAll
  | .getSize => some .getSize
  | .getCount => some .getCount
  | .setWait val timeout => some (.setWait val timeout)

/-- The result of a call that has changed semaphore 1 and only gives the mutex back. -/
def Pc.decided : Pc V → Option (Ret V)
  | .push val (.unlock _) => some (.push val 0)
  | .pop (.unlock out _) => some (.pop (some out) 0)
  | _ => none

@[simp] theorem Pc.idle_decided : (.idle : Pc V).decided = none := rfl

/-- The call returns with its next step. -/
def returns [Zero V] (s : State P V) (p : P) : Bool := ((s.proc p).step s.kernel).any fun (_, _, r) => r.isSome

/-- The call that takes effect with a step from this place, when `ret` says whether the call returns with it. -/
def Pc.effect (pc : Pc V) (ret : Bool) : Option (Op V) :=
  if pc.atIncr || pc.atDecr then pc.op
  else if pc.decided.isNone && ret then pc.op
  else none

/-- The call that takes effect in a step of the system. -/
def point [Zero V] (s : State P V) : Action P V → Option (P × Op V)
  | .call _ _ => none
  | .step p => ((s.proc p).pc.effect (returns s p)).map (p, ·)

/-- What the process has been promised. -/
def decided (s : State P V) (p : P) : Option (Ret V) := (s.proc p).pc.decided

/-! ### The list in the middle of a call -/

/-- What a process has read before it takes the mutex. -/
def Looked (cap : Int) : Pc V → Prop
  | .push _ (.count size) | .push _ (.spin size _) | .push _ (.nanosleep size _) | .push _ (.recount size _) =>
    size = cap
  | .push _ (.lock count _) => count ≠ cap
  | .pop (.lock count _) => count ≠ 0
  | .setWait w _ => WaitMode w
  | _ => True

/-- How far the holder of the mutex has come. -/
def Midway (l : Lifo V) (slot : Nat → V) : Option (Pc V) → Prop
  | some (.push _ (.write count _)) => count = l.items.length ∧ l.items.length < l.cap
  | some (.push v (.incr _)) => l.items.length < l.cap ∧ slot l.items.length = v
  | some (.pop (.read count _)) => count = l.items.length ∧ 0 < l.items.length
  | some (.pop (.decr out _)) => l.items.head? = some out
  | _ => True

/-- The semaphores and the slots hold the list, and every process has looked at them. -/
structure Linear (l : Lifo V) (val : Nat → Int) (slot : Nat → V) (holder : Option P) (s : State P V) : Prop where
  wait : ∀ p stack, (s.proc p).stack = some stack → WaitMode stack.wait
  cap_le : (l.cap : Int) ≤ semvmx
  cap : val 0 = l.cap
  count : val 1 = l.items.length
  slots : (List.range l.items.length).map slot = l.items.reverse
  looked : ∀ p, Looked l.cap (s.proc p).pc
  midway : Midway l slot (holder.map fun p => (s.proc p).pc)

/-- The state stands for the list. -/
def Base.Stands (b : Base) (l : Lifo V) (s : State P V) : Prop :=
  ∃ val slot holder, Exclusive b val slot holder s ∧ Linear l val slot holder s

/-! ### The top of the list -/

private theorem slots_update {l : Lifo V} {slot : Nat → V} (h : (List.range l.items.length).map slot = l.items.reverse)
    (v : V) : (List.range l.items.length).map (Function.update slot l.items.length v) = l.items.reverse := by
  rw [← h]
  refine List.map_congr_left fun i hi => Function.update_of_ne ?_ _ _
  exact Nat.ne_of_lt (List.mem_range.1 hi)

/-- The slot below the count holds the top. -/
private theorem head?_eq_slot {l : Lifo V} {slot : Nat → V} (h : (List.range l.items.length).map slot = l.items.reverse)
    (hpos : 0 < l.items.length) : l.items.head? = some (slot (l.items.length - 1)) := by
  cases hitems : l.items with
  | nil => rw [hitems] at hpos; exact absurd hpos (Nat.lt_irrefl 0)
  | cons v items =>
    rw [hitems, List.length_cons, List.range_succ, List.map_append, List.reverse_cons] at h
    obtain ⟨-, htop⟩ := List.append_inj' h rfl
    rw [List.map_singleton, List.singleton_inj] at htop
    rw [List.head?_cons, List.length_cons, Nat.add_sub_cancel, htop]

/-- A push below the capacity is answered by 0. -/
private theorem answer_push_room {l : Lifo V} {v : V} (h : l.items.length < l.cap) :
    (answer l (.push v)).2 = .push v 0 ∧ (answer l (.push v)).1.cap = l.cap ∧
      (answer l (.push v)).1.items = v :: l.items := by
  cases hpush : l.push? v with
  | none => exact absurd (Lifo.push?_eq_none.1 hpush) (Nat.ne_of_lt h)
  | some l' =>
    rw [answer_push_of_some hpush]
    exact ⟨rfl, (Lifo.push?_eq_some.1 hpush).2⟩

private theorem answer_push_full {l : Lifo V} {v : V} (h : l.items.length = l.cap) :
    answer l (.push v) = (l, .push v (-1)) := answer_push_of_none (Lifo.push?_eq_none.2 h)

private theorem answer_pop_top {l : Lifo V} {v : V} (h : l.items.head? = some v) :
    (answer l .pop).2 = .pop (some v) 0 ∧ (answer l .pop).1.cap = l.cap ∧ l.items = v :: (answer l .pop).1.items := by
  cases hpop : l.pop? with
  | none => rw [Lifo.pop?_eq_none.1 hpop] at h; cases h
  | some vl =>
    obtain ⟨hcap, hitems⟩ := Lifo.pop?_eq_some.1 hpop
    rw [hitems, List.head?_cons, Option.some.injEq] at h
    rw [answer_pop_of_some hpop, ← h]
    exact ⟨rfl, hcap, hitems⟩

private theorem answer_pop_empty {l : Lifo V} (h : l.items = []) : answer l .pop = (l, .pop none (-1)) :=
  answer_pop_of_none (Lifo.pop?_eq_none.2 h)

/-! ### One step -/

/-- A step that returns writes to the log. -/
private theorem returns_of_log [Zero V] [DecidableEq P] {s t : State P V} {p : P} {r : Option (Ret V)}
    (hs : s.step (.step p) = some t) (hlog : t.log = s.log ++ (r.map (p, ·)).toList) : returns s p = r.isSome := by
  simp only [State.step, Option.map_eq_some_iff] at hs
  obtain ⟨⟨k, q, r'⟩, hs, rfl⟩ := hs
  have hr := List.append_cancel_left hlog
  rw [returns, hs]
  cases r <;> cases r' <;> simp_all

/-- The books of a system in which one process has moved. -/
private theorem keepsBooks_of_proc [DecidableEq P] {s : State P V} {p : P} {k : Kernel V} {q : Proc V}
    {r : Option (Ret V)} {op : Option (Op V)} {l : Lifo V}
    (h : r.toList ++ q.pc.decided.toList = (s.proc p).pc.decided.toList ++ (op.map fun op => (answer l op).2).toList) :
    KeepsBooks answer State.log decided l (op.map (p, ·)) s
      ⟨k, Function.update s.proc p q, s.log ++ (r.map (p, ·)).toList⟩ := by
  refine ⟨_, rfl, fun p' => ?_⟩
  by_cases hp : p' = p
  · subst hp
    have hnew : ofCaller p' (r.map (p', ·)).toList = r.toList := by
      cases r <;> simp [ofCaller_singleton]
    have hans : ofCaller p' (Linearization.answers answer l (op.map (p', ·)).toList) =
        (op.map fun op => (answer l op).2).toList := by
      cases op <;> simp [Linearization.answers, ofCaller_singleton]
    rw [hnew, hans, decided, decided]
    simpa using h
  · have hnew : ofCaller p' (r.map (p, ·)).toList = [] := by
      cases r <;> simp [ofCaller_singleton, Ne.symm hp]
    have hans : ofCaller p' (Linearization.answers answer l (op.map (p, ·)).toList) = [] := by
      cases op <;> simp [Linearization.answers, ofCaller_singleton, Ne.symm hp]
    rw [hnew, hans, decided, decided]
    simp [Function.update_of_ne hp]

section Look

variable [Zero V] {b : Base} {val : Nat → Int} {slot : Nat → V} {stack : StackT} {pc : Pc V} {k : Kernel V}
  {q : Proc V} {r : Option (Ret V)} {l : Lifo V}

/-- A look at the semaphores leaves the list as it is, and what a call returns with it is the list's answer. -/
private theorem look_linear (hst : b.Attached stack) (hwait : WaitMode stack.wait) (hcap : val 0 = l.cap)
    (hcount : val 1 = l.items.length) (hok : PcOk pc) (hlooked : Looked l.cap pc) (hin : pc.inside = false)
    (hl : pc.atLock = false) (hs : Proc.step (b.kernel val slot) ⟨some stack, pc⟩ = some (k, q, r)) :
    (∀ stack', q.stack = some stack' → WaitMode stack'.wait) ∧ Looked l.cap q.pc ∧ q.pc.decided = none ∧
      ∀ x ∈ r, ∃ op, pc.op = some op ∧ answer l op = (l, x) := by
  obtain ⟨hsem, -⟩ := hst
  have hkeep : ∀ stack', some stack = some stack' → WaitMode stack'.wait := by
    rintro _ ⟨⟩
    exact hwait
  cases pc with
  | idle => cases hs
  | attach pc => exact hok.elim
  | push v pc =>
    have hfull : val 1 = val 0 → answer l (.push v) = (l, .push v (-1)) := fun h =>
      answer_push_full (by omega)
    cases pc <;> simp only [Pc.inside, Pc.atLock, reduceCtorEq] at hin hl <;>
      simp only [Proc.step, pushStep, pushTest, hsem, Option.bind_some, Option.map_some, Option.some.injEq,
        b.getval_kernel val slot (show 0 < 3 by omega), b.getval_kernel val slot (show 1 < 3 by omega)] at hs
    case size => cases hs; exact ⟨hkeep, hcap, rfl, by simp⟩
    case count size =>
      obtain rfl : size = l.cap := hlooked
      split at hs
      · rename_i heq
        rcases hwait with hw | hw | hw <;> rw [hw] at hs <;> cases hs
        · exact ⟨hkeep, trivial, rfl, fun x hx => ⟨_, rfl, by cases hx; exact hfull (by omega)⟩⟩
        · exact ⟨hkeep, rfl, rfl, by simp⟩
        · exact ⟨hkeep, rfl, rfl, by simp⟩
      · cases hs
        exact ⟨hkeep, by assumption, rfl, by simp⟩
    case spin size buf =>
      obtain rfl : size = l.cap := hlooked
      split at hs <;> cases hs
      · exact ⟨hkeep, rfl, rfl, by simp⟩
      · exact ⟨hkeep, by assumption, rfl, by simp⟩
    case nanosleep size buf => cases hs; exact ⟨hkeep, hlooked, rfl, by simp⟩
    case recount size buf =>
      obtain rfl : size = l.cap := hlooked
      split at hs <;> cases hs
      · exact ⟨hkeep, trivial, rfl, fun x hx => ⟨_, rfl, by cases hx; exact hfull (by omega)⟩⟩
      · exact ⟨hkeep, by assumption, rfl, by simp⟩
  | pop pc =>
    have hempty : val 1 = 0 → answer l .pop = (l, .pop none (-1)) := fun h =>
      answer_pop_empty (List.length_eq_zero_iff.1 (by omega))
    cases pc <;> simp only [Pc.inside, Pc.atLock, reduceCtorEq] at hin hl <;>
      simp only [Proc.step, popStep, popTest, hsem, Option.bind_some, Option.map_some, Option.some.injEq,
        b.getval_kernel val slot (show 1 < 3 by omega)] at hs
    case count =>
      split at hs
      · rename_i heq
        rcases hwait with hw | hw | hw <;> rw [hw] at hs <;> cases hs
        · exact ⟨hkeep, trivial, rfl, fun x hx => ⟨_, rfl, by cases hx; exact hempty heq⟩⟩
        · exact ⟨hkeep, trivial, rfl, by simp⟩
        · exact ⟨hkeep, trivial, rfl, by simp⟩
      · cases hs
        exact ⟨hkeep, by assumption, rfl, by simp⟩
    case spin buf =>
      split at hs <;> cases hs
      · exact ⟨hkeep, trivial, rfl, by simp⟩
      · exact ⟨hkeep, by assumption, rfl, by simp⟩
    case nanosleep buf => cases hs; exact ⟨hkeep, trivial, rfl, by simp⟩
    case recount buf =>
      split at hs <;> cases hs
      · exact ⟨hkeep, trivial, rfl, fun x hx => ⟨_, rfl, by cases hx; exact hempty (by assumption)⟩⟩
      · exact ⟨hkeep, by assumption, rfl, by simp⟩
  | printAll pc =>
    cases pc <;> simp only [Pc.inside, Pc.atLock, reduceCtorEq] at hin hl <;>
      simp only [Proc.step, printStep, Option.bind_some, Option.map_some, Option.some.injEq] at hs <;>
      cases hs <;> exact ⟨hkeep, trivial, rfl, by simp⟩
  | getSize =>
    simp only [Proc.step, hsem, Option.map_some, Option.some.injEq, b.getval_kernel val slot (show 0 < 3 by omega)]
      at hs
    cases hs
    exact ⟨hkeep, trivial, rfl, fun x hx => ⟨_, rfl, by cases hx; rw [hcap]; rfl⟩⟩
  | getCount =>
    simp only [Proc.step, hsem, Option.map_some, Option.some.injEq, b.getval_kernel val slot (show 1 < 3 by omega)]
      at hs
    cases hs
    exact ⟨hkeep, trivial, rfl, fun x hx => ⟨_, rfl, by cases hx; rw [hcount]; rfl⟩⟩
  | setWait w tm =>
    simp only [Proc.step, Option.map_some, Option.some.injEq] at hs
    cases hs
    refine ⟨?_, trivial, rfl, fun x hx => ⟨_, rfl, by cases hx; rfl⟩⟩
    rintro _ ⟨⟩
    exact hlooked

end Look

/-- The list after the call that takes effect, if there is one. -/
def afterOp (l : Lifo V) (op : Option (Op V)) : Lifo V := after answer l (op.map (fun op => ((), op))).toList

private theorem after_point {l : Lifo V} {p : P} (op : Option (Op V)) :
    after answer l (op.map (p, ·)).toList = afterOp l op := by
  cases op <;> rfl

private theorem afterOp_cap (l : Lifo V) (op : Option (Op V)) : (afterOp l op).cap = l.cap := by
  cases op with
  | none => rfl
  | some op => exact answer_cap l op

/-- A step inside: it prepares the change of the list, makes it, or gives the mutex back. -/
private theorem InsideStep.linear {b : Base} {val val' : Nat → Int} {slot slot' : Nat → V} {pc pc' : Pc V}
    {r : Option (Ret V)} {l : Lifo V} (h : InsideStep b val slot pc val' slot' pc' r) (hcap : (l.cap : Int) ≤ semvmx)
    (hcount : val 1 = l.items.length) (hslots : (List.range l.items.length).map slot = l.items.reverse)
    (hmid : Midway l slot (some pc)) :
    val' 1 = (afterOp l (pc.effect r.isSome)).items.length ∧
      (List.range (afterOp l (pc.effect r.isSome)).items.length).map slot' =
        (afterOp l (pc.effect r.isSome)).items.reverse ∧
      Midway (afterOp l (pc.effect r.isSome)) slot' (if pc'.inside then some pc' else none) ∧
      r.toList ++ pc'.decided.toList =
        pc.decided.toList ++ ((pc.effect r.isSome).map fun op => (answer l op).2).toList := by
  cases h with
  | write hseg =>
    obtain ⟨rfl, hlt⟩ := hmid
    refine ⟨hcount, slots_update hslots _, ⟨hlt, ?_⟩, rfl⟩
    exact Function.update_self ..
  | @incr v buf hmax =>
    obtain ⟨hlt, hv⟩ := hmid
    obtain ⟨hret, -, hitems⟩ := answer_push_room (v := v) hlt
    have hafter : afterOp l (some (.push v)) = (answer l (.push v)).1 := rfl
    refine ⟨?_, ?_, trivial, ?_⟩
    · simp [Pc.effect, Pc.atIncr, Pc.op, hafter, hitems, hcount]
    · simp [Pc.effect, Pc.atIncr, Pc.op, hafter, hitems, List.range_succ, hslots, hv]
    · simp [Pc.effect, Pc.atIncr, Pc.op, Pc.decided, hret]
  | incrFull hmax =>
    obtain ⟨hlt, -⟩ := hmid
    omega
  | pushUnlock => exact ⟨hcount, hslots, trivial, rfl⟩
  | read hseg =>
    obtain ⟨rfl, hpos⟩ := hmid
    refine ⟨hcount, hslots, ?_, rfl⟩
    show l.items.head? = _
    rw [head?_eq_slot hslots hpos]
    congr 2
    omega
  | decr hpos =>
    obtain ⟨hret, -, hitems⟩ := answer_pop_top hmid
    have hafter : afterOp l (some .pop) = (answer l .pop).1 := rfl
    rw [hitems, List.length_cons] at hcount hslots
    refine ⟨?_, ?_, trivial, ?_⟩
    · simp [Pc.effect, Pc.atIncr, Pc.atDecr, Pc.op, hafter, hcount]
    · rw [List.range_succ, List.map_append, List.reverse_cons] at hslots
      simpa [Pc.effect, Pc.atIncr, Pc.atDecr, Pc.op, hafter] using (List.append_inj' hslots rfl).1
    · simp [Pc.effect, Pc.atIncr, Pc.atDecr, Pc.op, Pc.decided, hret]
  | popUnlock => exact ⟨hcount, hslots, trivial, rfl⟩
  | @printRead i count buf hseg =>
    refine ⟨hcount, hslots, ?_, ?_⟩
    · rw [printLoop_inside]
      unfold printLoop
      split <;> trivial
    · unfold printLoop
      split <;> rfl
  | printUnlock => exact ⟨hcount, hslots, trivial, rfl⟩

private theorem InsideStep.looked {b : Base} {val val' : Nat → Int} {slot slot' : Nat → V} {pc pc' : Pc V}
    {r : Option (Ret V)} {cap : Int} (h : InsideStep b val slot pc val' slot' pc' r) : Looked cap pc' := by
  cases h with
  | printRead hseg => unfold printLoop; split <;> trivial
  | _ => trivial

/-- Taking the mutex with a fresh count. -/
theorem Linear.locked {l : Lifo V} {val : Nat → Int} (slot : Nat → V) {pc : Pc V} (hcount : val 1 = l.items.length)
    (hlooked : Looked l.cap pc) (hl : pc.atLock = true) (hfresh : ∀ count ∈ pc.lockCount, count = val 1) :
    Looked l.cap pc.locked ∧ Midway l slot (some pc.locked) ∧ pc.atIncr = false ∧ pc.atDecr = false ∧
      pc.decided = none ∧ pc.locked.decided = none := by
  have hle := l.length_le
  cases pc with
  | push v pc =>
    cases pc <;> simp only [Pc.atLock, Bool.false_eq_true] at hl
    have hne : _ ≠ (l.cap : Int) := hlooked
    have hn := hfresh _ rfl
    exact ⟨trivial, ⟨by omega, by omega⟩, rfl, rfl, rfl, rfl⟩
  | pop pc =>
    cases pc <;> simp only [Pc.atLock, Bool.false_eq_true] at hl
    have hne : _ ≠ (0 : Int) := hlooked
    have hn := hfresh _ rfl
    exact ⟨trivial, ⟨by omega, by omega⟩, rfl, rfl, rfl, rfl⟩
  | printAll pc =>
    cases pc <;> simp only [Pc.atLock, Bool.false_eq_true] at hl
    simp only [Pc.locked]
    unfold printLoop
    split <;> exact ⟨trivial, trivial, rfl, rfl, rfl, rfl⟩
  | _ => cases hl

private theorem Op.start_looked {op : Op V} {p : P} (cap : Int) (h : (Action.call p op).uses) :
    Looked cap op.start ∧ op.start.decided = none := by
  cases op with
  | setWait w tm => exact ⟨h, rfl⟩
  | _ => exact ⟨trivial, rfl⟩

theorem Action.uses.noAttach {a : Action P V} (h : a.uses) : a.noAttach := by
  cases a with
  | call p op => cases op <;> first | exact h | trivial
  | step p => trivial

/-- One step of the system: the state stands for the list after the call that takes effect, and the books are kept. -/
theorem stands_step [Zero V] [DecidableEq P] {b : Base} (l : Lifo V) (s : State P V) (a : Action P V) (t : State P V)
    (h : b.Stands l s) (ha : a.uses ∧ CountFresh s a) (hs : s.step a = some t) :
    b.Stands (after answer l (point s a).toList) t ∧ KeepsBooks answer State.log decided l (point s a) s t := by
  obtain ⟨val, slot, holder, hex, hlin⟩ := h
  obtain ⟨huses, hfresh⟩ := ha
  obtain ⟨val', slot', holder', hm, hex'⟩ := exclusive_step hex huses.noAttach hs
  cases hm with
  | @call p op hidle =>
    have hnot : holder ≠ some p := fun hp => by simpa [hidle, Pc.inside] using (hex.inside_iff p).2 hp
    obtain ⟨hlook, hdec⟩ := Op.start_looked l.cap huses
    refine ⟨⟨val, slot, holder, hex', ?_⟩, ?_⟩
    · exact { hlin with
        wait := forall_proc_update (fun q => ∀ stack, q.stack = some stack → WaitMode stack.wait) hlin.wait
          (hlin.wait p)
        looked := forall_proc_update (fun q => Looked l.cap q.pc) hlin.looked hlook
        midway := by
          show Midway l slot (holder.map fun p' => (Function.update s.proc p _ p').pc)
          rw [holder_update hnot]
          exact hlin.midway }
    · have hbooks := @keepsBooks_of_proc P V _ s p s.kernel ⟨(s.proc p).stack, op.start⟩ none none l
        (by simp [hidle, hdec])
      simpa [point] using hbooks
  | @look p q r hin hl hstep hr =>
    have hnot : holder ≠ some p := fun hp => by simpa [hin] using (hex.inside_iff p).2 hp
    obtain ⟨stack, hstack, hst⟩ := hex.attached p
    obtain ⟨hincr, hdecr⟩ := Pc.not_atCount_of_outside hin
    have hdec : (s.proc p).pc.decided = none := by
      generalize (s.proc p).pc = pc at hin
      cases pc with
      | push v pc | pop pc => cases pc <;> first | rfl | cases hin
      | _ => rfl
    have hret : returns s p = r.isSome := returns_of_log hs rfl
    rw [hex.kernel, show s.proc p = ⟨some stack, (s.proc p).pc⟩ by rw [← hstack]] at hstep
    obtain ⟨hwait, hlook, hqdec, hans⟩ := look_linear hst (hlin.wait p stack hstack) hlin.cap hlin.count (hex.pcOk p)
      (hlin.looked p) hin hl hstep
    -- the answer leaves the list as it is
    have hpoint : ∃ op, (s.proc p).pc.effect r.isSome = op ∧ afterOp l op = l ∧
        r.toList = (op.map fun op => (answer l op).2).toList := by
      cases r with
      | none => exact ⟨none, by simp [Pc.effect, hincr, hdecr], rfl, rfl⟩
      | some x =>
        obtain ⟨op, hop, hx⟩ := hans x rfl
        refine ⟨some op, by simp [Pc.effect, hincr, hdecr, hdec, hop], ?_, by simp [hx]⟩
        show (answer l op).1 = l
        rw [hx]
    obtain ⟨op, heff, hafter, hr'⟩ := hpoint
    rw [point, hret, heff, after_point, hafter]
    refine ⟨⟨val, slot, holder, hex', ?_⟩, keepsBooks_of_proc (by simp [hqdec, hdec, hr'])⟩
    exact { hlin with
      wait := forall_proc_update (fun q => ∀ stack, q.stack = some stack → WaitMode stack.wait) hlin.wait hwait
      looked := forall_proc_update (fun q => Looked l.cap q.pc) hlin.looked hlook
      midway := by
        show Midway l slot (holder.map fun p' => (Function.update s.proc p q p').pc)
        rw [holder_update hnot]
        exact hlin.midway }
  | @lock p hl hfree =>
    have hcount : s.kernel.semVal 1 = val 1 := hex.semVal 1
    obtain ⟨hlook, hmid, hincr, hdecr, hdec, hdec'⟩ := Linear.locked slot hlin.count (hlin.looked p) hl
      (by rw [← hcount]; exact hfresh)
    have hret : returns s p = (none : Option (Ret V)).isSome := returns_of_log hs (by simp)
    have heff : (s.proc p).pc.effect false = none := by simp [Pc.effect, hincr, hdecr]
    rw [point, hret, Option.isSome_none, heff, after_point]
    refine ⟨⟨_, slot, some p, hex', ?_⟩, ?_⟩
    · exact { hlin with
        wait := forall_proc_update (fun q => ∀ stack, q.stack = some stack → WaitMode stack.wait) hlin.wait
          (hlin.wait p)
        looked := forall_proc_update (fun q => Looked l.cap q.pc) hlin.looked hlook
        midway := by
          show Midway l slot (some (Function.update s.proc p _ p).pc)
          rw [Function.update_self]
          exact hmid }
    · have hbooks := @keepsBooks_of_proc P V _ s p (b.kernel (Function.update val 2 0) slot)
        ⟨(s.proc p).stack, (s.proc p).pc.locked⟩ none none l (by simp [hdec, hdec'])
      simpa using hbooks
  | @inside p pc r val' slot' hholder hi =>
    subst hholder
    have hret : returns s p = r.isSome := returns_of_log hs rfl
    obtain ⟨hcount, hslots, hmid, hbooks⟩ := hi.linear hlin.cap_le hlin.count hlin.slots hlin.midway
    rw [point, hret, after_point]
    refine ⟨⟨val', slot', _, hex', ?_⟩, keepsBooks_of_proc hbooks⟩
    exact
      { wait := forall_proc_update (fun q => ∀ stack, q.stack = some stack → WaitMode stack.wait) hlin.wait
          (hlin.wait p)
        cap_le := by rw [afterOp_cap]; exact hlin.cap_le
        cap := by rw [afterOp_cap, hi.cap, hlin.cap]
        count := hcount
        slots := hslots
        looked := forall_proc_update (fun q => Looked _ q.pc) (by rw [afterOp_cap]; exact hlin.looked) hi.looked
        midway := by
          convert hmid using 1
          split <;> simp }

/-! ### Whole runs -/

/-- Every process is attached with a wait mode of stack.h, no call is in progress, and the stack `b` holds the list. -/
structure Shares (b : Base) (l : Lifo V) (s : State P V) : Prop where
  kernel : ∃ val slot, s.kernel = b.kernel val slot ∧ Holds l val slot
  attached : ∀ p, ∃ stack, (s.proc p).stack = some stack ∧ b.Attached stack ∧ WaitMode stack.wait
  quiescent : Quiescent s
  cap_le : (l.cap : Int) ≤ semvmx

theorem Shares.stands {b : Base} {l : Lifo V} {s : State P V} (h : Shares b l s) : b.Stands l s := by
  obtain ⟨val, slot, hk, hh⟩ := h.kernel
  have hidle : ∀ p, (s.proc p).pc = .idle := h.quiescent
  have hle := l.length_le
  have hcount := hh.count
  have hrest : AtRest b val slot s :=
    { kernel := hk
      attached := fun p => by
        obtain ⟨stack, hs, hst, -⟩ := h.attached p
        exact ⟨stack, hs, hst⟩
      quiescent := h.quiescent
      count_nonneg := by omega
      count_le := by have := h.cap_le; omega
      mutex := hh.mutex }
  refine ⟨val, slot, none, hrest.exclusive, ?_⟩
  exact
    { wait := fun p stack hs => by
        obtain ⟨stack', hs', -, hw⟩ := h.attached p
        rw [hs, Option.some.injEq] at hs'
        rw [hs']
        exact hw
      cap_le := h.cap_le
      cap := hh.cap
      count := hh.count
      slots := hh.slots
      looked := fun p => by rw [hidle p]; trivial
      midway := trivial }

/-- At rest a state that stands for the list holds it. -/
theorem Base.Stands.holds {b : Base} {l : Lifo V} {s : State P V} (h : b.Stands l s) (hq : Quiescent s) :
    ∃ val slot, s.kernel = b.kernel val slot ∧ Holds l val slot := by
  obtain ⟨val, slot, holder, hex, hlin⟩ := h
  have hfree : holder = none := by
    cases holder with
    | none => rfl
    | some p => simpa [hq p, Pc.inside] using (hex.inside_iff p).2 rfl
  subst hfree
  exact ⟨val, slot, hex.kernel, hlin.cap, hlin.count, hex.mutex, hlin.slots⟩

/-- A stack in a segment of one page that holds the list, with every process attached to it in wait mode 0. -/
def waiting (P : Type) (l : Lifo Nat) : State P Nat where
  kernel := ⟨some ⟨1, 1, fun i => l.items.reverse.getD i 0⟩,
    some ⟨2, 3, fun n => if n = 0 then l.cap else if n = 1 then l.items.length else if n = 2 then 1 else 0⟩, 3, 4⟩
  proc := fun _ => ⟨some ⟨1, 0, 2, 1, ⟨0, 0⟩⟩, .idle⟩
  log := []

theorem waiting_shares (P : Type) (l : Lifo Nat) (hcap : (l.cap : Int) ≤ semvmx) :
    Shares ⟨1, 1, 2, 3, 4⟩ l (waiting P l) where
  kernel := by
    refine ⟨_, _, rfl, rfl, rfl, rfl, ?_⟩
    refine List.ext_getElem (by simp) fun i h _ => ?_
    simp at h
    simp [List.getD_eq_getElem?_getD, h]
  attached := fun _ => ⟨_, rfl, ⟨rfl, rfl⟩, .inr (.inl rfl)⟩
  quiescent := fun _ => rfl
  cap_le := hcap

/-- Every run of attached processes, in any wait modes, whose calls take the mutex with a fresh count: the calls in the
order in which they take effect are a history of the bounded last-in-first-out list.  Every process has got, in its own
order, the results that the list gives it in this history (the last of them may be decided and not yet returned), and
semaphore 1 is the number of values on the list; whenever no call is in progress the slots hold the list. -/
theorem stack_linearizable [Zero V] [DecidableEq P] {b : Base} {l : Lifo V} {s₀ s : State P V}
    {as : List (Action P V)} (h₀ : Shares b l s₀) (hlog : s₀.log = []) (huses : ∀ a ∈ as, a.uses)
    (hfresh : AllSteps State.step CountFresh s₀ as) (hrun : run State.step s₀ as = some s) :
    (∀ p, ofCaller p s.log ++ (decided s p).toList =
      ofCaller p (Linearization.answers answer l (history State.step point s₀ as))) ∧
    s.kernel.semVal 1 = (after answer l (history State.step point s₀ as)).items.length ∧
    (Quiescent s → ∃ val slot, s.kernel = b.kernel val slot ∧
      Holds (after answer l (history State.step point s₀ as)) val slot) := by
  obtain ⟨hstands, new, hnew, hbooks⟩ :=
    linearizable stands_step h₀.stands (hfresh.and_of_mem huses) hrun
  rw [hlog, List.nil_append] at hnew
  refine ⟨?_, ?_, hstands.holds⟩
  · intro p
    have hidle : decided s₀ p = none := by rw [decided, h₀.quiescent p]; rfl
    rw [hnew, hbooks p, hidle]
    rfl
  · obtain ⟨val, slot, holder, hex, hlin⟩ := hstands
    rw [hex.semVal 1, hlin.count]

/-- A push that finds the stack full waits in mode 0 while the other process pops. -/
theorem stack_linearizable_spin : ∃ (as : List (Action Bool Nat)) (s : State Bool Nat),
    run State.step (waiting Bool ⟨1, [7], Nat.le_refl 1⟩) as = some s ∧
    (∀ p, ofCaller p s.log ++ (decided s p).toList = ofCaller p (Linearization.answers answer ⟨1, [7], Nat.le_refl 1⟩
      (history State.step point (waiting Bool ⟨1, [7], Nat.le_refl 1⟩) as))) ∧
    s.kernel.semVal 1 = (after answer ⟨1, [7], Nat.le_refl 1⟩
      (history State.step point (waiting Bool ⟨1, [7], Nat.le_refl 1⟩) as)).items.length ∧
    (Quiescent s → ∃ val slot, s.kernel = Base.kernel ⟨1, 1, 2, 3, 4⟩ val slot ∧
      Holds (after answer ⟨1, [7], Nat.le_refl 1⟩
        (history State.step point (waiting Bool ⟨1, [7], Nat.le_refl 1⟩) as)) val slot) := by
  refine ⟨[.call true (.push 8)] ++ List.replicate 4 (.step true) ++ [.call false .pop] ++
    List.replicate 5 (.step false) ++ List.replicate 5 (.step true), _, rfl, ?_⟩
  refine @stack_linearizable Bool Nat _ _ ⟨1, 1, 2, 3, 4⟩ _ _ _ _ (waiting_shares Bool _ (by decide)) rfl ?_
    (by decide) rfl
  simp [Action.uses]

end UnixTasks.ShStack
