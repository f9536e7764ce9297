import UnixTasks.ShStack.Linear

/-!
# Wait mode 0

A process in wait mode 0 looks again until the stack has room or a value, so that its calls are never refused.

* (`patient_history`) no call of the sequential history of a run is refused.
-/

namespace UnixTasks.ShStack

open ActionSystem Linearization

variable {P V : Type}

/-- A push or a pop that has given up. -/
def Ret.refused : Ret V → Prop
  | .push _ ret | .pop _ ret => ret = -1
  | _ => False

/-- Outside the waits of the other modes, and outside the calls that set a wait mode. -/
def Pc.patient : Pc V → Prop
  | .attach _ | .setWait _ _ | .push _ (.nanosleep ..) | .push _ (.recount ..) | .pop (.nanosleep ..)
  | .pop (.recount ..) => False
  | _ => True

/-- The process is in wait mode 0, and not in the waits of the other modes. -/
def Patient (q : Proc V) : Prop := (∀ stack, q.stack = some stack → stack.wait = 0) ∧ q.pc.patient

/-- What a patient call leads to. -/
def Next.patient {Place : Type} (place : Place → Pc V) : Next V Place → Prop
  | .goto pc => (place pc).patient
  | .ret r => ¬ r.refused

private theorem pushStep_patient {k k' : Kernel V} {stack : StackT} {v : V} {pc : PushPc} {next : Next V PushPc}
    (hzero : stack.wait = 0) (hpc : (Pc.push v pc).patient) (hs : pushStep k stack v pc = some (k', next)) :
    next.patient (.push v) := by
  cases pc with
  | size => cases hs; trivial
  | count size =>
    rw [pushStep, Option.some.injEq, Prod.mk.injEq] at hs
    obtain ⟨-, rfl⟩ := hs
    unfold pushTest
    rw [hzero]
    split <;> trivial
  | spin size buf =>
    rw [pushStep, Option.some.injEq, Prod.mk.injEq] at hs
    obtain ⟨-, rfl⟩ := hs
    split <;> trivial
  | nanosleep size buf | recount size buf => exact hpc.elim
  | lock count buf | write count buf | incr buf =>
    rw [pushStep, Option.map_eq_some_iff] at hs
    obtain ⟨_, -, hs⟩ := hs
    cases hs
    trivial
  | unlock buf =>
    rw [pushStep, Option.map_eq_some_iff] at hs
    obtain ⟨_, -, hs⟩ := hs
    cases hs
    show ¬ (0 : Int) = -1
    decide

private theorem popStep_patient {k k' : Kernel V} {stack : StackT} {pc : PopPc V} {next : Next V (PopPc V)}
    (hzero : stack.wait = 0) (hpc : (Pc.pop pc).patient) (hs : popStep k stack pc = some (k', next)) :
    next.patient .pop := by
  cases pc with
  | count =>
    rw [popStep, Option.some.injEq, Prod.mk.injEq] at hs
    obtain ⟨-, rfl⟩ := hs
    unfold popTest
    rw [hzero]
    split <;> trivial
  | spin buf =>
    rw [popStep, Option.some.injEq, Prod.mk.injEq] at hs
    obtain ⟨-, rfl⟩ := hs
    split <;> trivial
  | nanosleep buf | recount buf => exact hpc.elim
  | lock count buf | read count buf | decr out buf =>
    rw [popStep, Option.map_eq_some_iff] at hs
    obtain ⟨_, -, hs⟩ := hs
    cases hs
    trivial
  | unlock out buf =>
    rw [popStep, Option.map_eq_some_iff] at hs
    obtain ⟨_, -, hs⟩ := hs
    cases hs
    show ¬ (0 : Int) = -1
    decide

private theorem printStep_patient {k k' : Kernel V} {stack : StackT} {pc : PrintPc} {next : Next V PrintPc}
    (hs : printStep k stack pc = some (k', next)) : next.patient .printAll := by
  cases pc with
  | size | count => cases hs; trivial
  | lock count buf | read i count buf | unlock buf =>
    rw [printStep, Option.map_eq_some_iff] at hs
    obtain ⟨_, -, hs⟩ := hs
    cases hs
    first | trivial | exact not_false

private theorem Next.resume_patient {Place : Type} {place : Place → Pc V} {next : Next V Place} {q : Proc V}
    (hq : ∀ stack, q.stack = some stack → stack.wait = 0) (h : next.patient place) :
    Patient (next.resume q place).1 ∧ ∀ x ∈ (next.resume q place).2, ¬ x.refused := by
  cases next with
  | goto pc => exact ⟨⟨hq, h⟩, by simp [Next.resume]⟩
  | ret r =>
    refine ⟨⟨hq, trivial⟩, ?_⟩
    rintro _ ⟨⟩
    exact h

/-- A patient process stays patient and is not refused. -/
theorem patient_step [Zero V] {k k' : Kernel V} {q q' : Proc V} {r : Option (Ret V)} (h : Patient q)
    (hs : q.step k = some (k', q', r)) : Patient q' ∧ ∀ x ∈ r, ¬ x.refused := by
  obtain ⟨hwait, hpc⟩ := h
  cases hq : q.pc with
  | idle => rw [Proc.step, hq] at hs; cases hs
  | attach pc => rw [hq] at hpc; exact hpc.elim
  | setWait w tm => rw [hq] at hpc; exact hpc.elim
  | push v pc =>
    rw [hq] at hpc
    simp only [Proc.step, hq, Option.bind_eq_some_iff, Option.map_eq_some_iff] at hs
    obtain ⟨stack, hstack, ⟨k₁, next⟩, hs, heq⟩ := hs
    obtain ⟨-, hnext⟩ := Prod.mk.inj heq
    have hpatient := Next.resume_patient hwait (pushStep_patient (hwait stack hstack) hpc hs)
    rwa [hnext] at hpatient
  | pop pc =>
    rw [hq] at hpc
    simp only [Proc.step, hq, Option.bind_eq_some_iff, Option.map_eq_some_iff] at hs
    obtain ⟨stack, hstack, ⟨k₁, next⟩, hs, heq⟩ := hs
    obtain ⟨-, hnext⟩ := Prod.mk.inj heq
    have hpatient := Next.resume_patient hwait (popStep_patient (hwait stack hstack) hpc hs)
    rwa [hnext] at hpatient
  | printAll pc =>
    simp only [Proc.step, hq, Option.bind_eq_some_iff, Option.map_eq_some_iff] at hs
    obtain ⟨stack, hstack, ⟨k₁, next⟩, hs, heq⟩ := hs
    obtain ⟨-, hnext⟩ := Prod.mk.inj heq
    have hpatient := Next.resume_patient hwait (printStep_patient hs)
    rwa [hnext] at hpatient
  | getSize | getCount =>
    simp only [Proc.step, hq, Option.map_eq_some_iff] at hs
    obtain ⟨stack, -, heq⟩ := hs
    cases heq
    refine ⟨⟨hwait, trivial⟩, ?_⟩
    rintro _ ⟨⟩
    exact not_false

/-- Every process is patient, and none has been refused. -/
def AllPatient (s : State P V) : Prop := (∀ p, Patient (s.proc p)) ∧ ∀ e ∈ s.log, ¬ e.2.refused

private theorem allPatient_step [Zero V] [DecidableEq P] (s : State P V) (a : Action P V) (t : State P V)
    (h : AllPatient s) (ha : a.access) (hs : s.step a = some t) : AllPatient t := by
  obtain ⟨hproc, hlog⟩ := h
  cases a with
  | call p op =>
    simp only [State.step] at hs
    split at hs <;> cases hs
    refine ⟨forall_proc_update Patient hproc ⟨(hproc p).1, ?_⟩, hlog⟩
    cases op <;> first | exact ha.elim | trivial
  | step p =>
    simp only [State.step, Option.map_eq_some_iff] at hs
    obtain ⟨⟨k, q, r⟩, hs, rfl⟩ := hs
    obtain ⟨hq, hr⟩ := patient_step (hproc p) hs
    refine ⟨forall_proc_update Patient hproc hq, ?_⟩
    intro e he
    rcases List.mem_append.1 he with he | he
    · exact hlog e he
    · simp only [Option.mem_toList, Option.map_eq_some_iff] at he
      obtain ⟨x, hx, rfl⟩ := he
      exact hr x hx

theorem Action.access.uses {a : Action P V} (h : a.access) : a.uses := by
  cases a with
  | call p op => cases op <;> first | exact h.elim | trivial
  | step p => trivial

private theorem not_refused_of_decided {pc : Pc V} {r : Ret V} (h : pc.decided = some r) : ¬ r.refused := by
  unfold Pc.decided at h
  split at h <;> cases h <;> simp [Ret.refused]

/-- When all processes share the stack in wait mode 0 it never refuses anybody: every call in the history finds room or
a value on the list, so at no time more has been pushed than fits or more popped than was there. -/
theorem patient_history [Zero V] [DecidableEq P] {b : Base} {l : Lifo V} {s₀ s : State P V}
    {as : List (Action P V)} (h₀ : Shares b l s₀) (hlog : s₀.log = [])
    (hwait : ∀ p stack, (s₀.proc p).stack = some stack → stack.wait = 0) (hacc : ∀ a ∈ as, a.access)
    (hfresh : AllSteps State.step CountFresh s₀ as) (hrun : run State.step s₀ as = some s) :
    ∀ e ∈ Linearization.answers answer l (history State.step point s₀ as), ¬ e.2.refused := by
  have hpatient₀ : AllPatient s₀ := by
    refine ⟨fun p => ⟨hwait p, ?_⟩, by simp [hlog]⟩
    rw [h₀.quiescent p]
    trivial
  obtain ⟨-, hnever⟩ := run_invariant_of_good allPatient_step hpatient₀ (.of_mem hacc) hrun
  obtain ⟨-, new, hnew, hbooks⟩ :=
    linearizable stands_step h₀.stands (hfresh.and_of_mem fun a ha => (hacc a ha).uses) hrun
  rw [hlog, List.nil_append] at hnew
  rintro ⟨p, r⟩ he
  -- a result in the history has been returned or is decided
  have hmem : r ∈ ofCaller p (Linearization.answers answer l (history State.step point s₀ as)) := by
    rw [ofCaller, List.mem_filterMap]
    exact ⟨_, he, by simp⟩
  have hidle : decided s₀ p = none := by rw [decided, h₀.quiescent p]; rfl
  have hbook := hbooks p
  rw [hidle, Option.toList_none, List.nil_append] at hbook
  rw [← hbook, List.mem_append] at hmem
  rcases hmem with hret | hdec
  · rw [← hnew, ofCaller, List.mem_filterMap] at hret
    obtain ⟨e, hin, hp⟩ := hret
    split at hp
    · cases hp
      exact hnever e hin
    · cases hp
  · exact not_refused_of_decided (Option.mem_toList.1 hdec)

/-- The push that waits for the pop of the other process. -/
theorem patient_history_spin : ∃ (as : List (Action Bool Nat)) (s : State Bool Nat),
    run State.step (waiting Bool ⟨1, [7], Nat.le_refl 1⟩) as = some s ∧
    ∀ e ∈ Linearization.answers answer ⟨1, [7], Nat.le_refl 1⟩
      (history State.step point (waiting Bool ⟨1, [7], Nat.le_refl 1⟩) as), ¬ e.2.refused := by
  refine ⟨[.call true (.push 8)] ++ List.replicate 4 (.step true) ++ [.call false .pop] ++
    List.replicate 5 (.step false) ++ List.replicate 5 (.step true), _, rfl, ?_⟩
  refine @patient_history Bool Nat _ _ ⟨1, 1, 2, 3, 4⟩ _ _ _ _ (waiting_shares Bool _ (by decide)) rfl ?_ ?_
    (by decide) rfl
  · rintro p _ ⟨⟩
    rfl
  · simp [Action.access]

end UnixTasks.ShStack
