import UnixTasks.ShStack.Mutex

/-!
# A pop that sleeps inside

`pop` looks at the count before it takes the mutex and takes 1 from semaphore 1 while it holds it.  If other calls have
emptied the stack in between, it sleeps there, and nobody can come in and wake it.

* (`Deadlocked`) the holder of the mutex sleeps on semaphore 1 and nobody else can do anything;
* (`PopFindsValue`) the condition on the step with which a `pop` takes the mutex;
* (`not_deadlocked`) no run whose steps meet it comes to a deadlock;
* (`pop_stuck`) after a step that does not meet it, this `pop` holds the mutex for ever;
* (`pop_deadlocked`) two pops of which the second sleeps inside.
-/

namespace UnixTasks.ShStack

open ActionSystem

variable {P V : Type}

/-- The process is in a call and its next system call does not return now. -/
def Sleeps [Zero V] [DecidableEq P] (s : State P V) (p : P) : Prop := s.step (.step p) = none

/-- A process that holds the mutex sleeps on semaphore 1, and all others are idle or sleep on the mutex. -/
def Deadlocked [Zero V] [DecidableEq P] (s : State P V) : Prop :=
  ∃ p ∈ insiders s, ((s.proc p).pc.atIncr = true ∨ (s.proc p).pc.atDecr = true) ∧ Sleeps s p ∧
    ∀ p', p' ≠ p → (s.proc p').pc = .idle ∨ ((s.proc p').pc.atLock = true ∧ Sleeps s p')

/-- At the acquiring `semop` of `pop`. -/
def Pc.popLock : Pc V → Bool
  | .pop (.lock _ _) => true
  | _ => false

/-- A `pop` that takes the mutex finds a value on the stack. -/
def PopFindsValue (s : State P V) : Action P V → Prop
  | .call _ _ => True
  | .step p => (s.proc p).pc.popLock = true → 0 < s.kernel.semVal 1

instance (s : State P V) : ∀ a, Decidable (PopFindsValue s a)
  | .call _ _ => inferInstanceAs (Decidable True)
  | .step p => inferInstanceAs (Decidable ((s.proc p).pc.popLock = true → 0 < s.kernel.semVal 1))

/-! ### What keeps a pop awake -/

/-- Inside `pop`, before it has taken 1 from semaphore 1. -/
def Pc.popping : Pc V → Bool
  | .pop (.read _ _) | .pop (.decr _ _) => true
  | _ => false

private theorem Pc.inside_of_popping {pc : Pc V} (h : pc.popping = true) : pc.inside = true := by
  cases pc with
  | pop pc =>
    cases pc with
    | read count buf | decr out buf => rfl
    | _ => cases h
  | _ => cases h

private theorem printLoop_popping (i : Nat) (count : Int) (buf : SemBuf) :
    Pc.popping (.printAll (printLoop i count buf) : Pc V) = false := by
  unfold printLoop
  split <;> rfl

private theorem Pc.popLock_of_locked {pc : Pc V} (hl : pc.atLock = true) (h : pc.locked.popping = true) :
    pc.popLock = true := by
  cases pc with
  | push v pc =>
    cases pc with
    | lock count buf => cases h
    | _ => cases hl
  | pop pc =>
    cases pc with
    | lock count buf => rfl
    | _ => cases hl
  | printAll pc =>
    cases pc with
    | lock count buf => simp [Pc.locked, printLoop_popping] at h
    | _ => cases hl
  | _ => cases hl

/-- A `pop` inside moves on without a change of semaphore 1. -/
private theorem InsideStep.popping {b : Base} {val val' : Nat → Int} {slot slot' : Nat → V} {pc pc' : Pc V}
    {r : Option (Ret V)} (h : InsideStep b val slot pc val' slot' pc' r) (hpc : pc'.popping = true) :
    pc.popping = true ∧ val' 1 = val 1 := by
  cases h with
  | read hseg => exact ⟨rfl, rfl⟩
  | printRead hseg => simp [printLoop_popping] at hpc
  | _ => cases hpc

/-- The semaphores are explained, and a `pop` that is about to take 1 from semaphore 1 can do so. -/
def Base.Supplied (b : Base) (s : State P V) : Prop :=
  ∃ val slot holder, Exclusive b val slot holder s ∧ ∀ p, (s.proc p).pc.popping = true → 0 < val 1

section Steps

variable [Zero V] [DecidableEq P] {b : Base}

private theorem supplied_step (s : State P V) (a : Action P V) (t : State P V) (h : b.Supplied s)
    (ha : a.noAttach ∧ PopFindsValue s a) (hs : s.step a = some t) : b.Supplied t := by
  obtain ⟨val, slot, holder, hex, hpop⟩ := h
  obtain ⟨hcall, hfinds⟩ := ha
  obtain ⟨val', slot', holder', hm, hex'⟩ := exclusive_step hex hcall hs
  refine ⟨val', slot', holder', hex', ?_⟩
  intro p' hp'
  have hin' := (hex'.inside_iff p').1 (Pc.inside_of_popping hp')
  cases hm with
  | @call p op hidle =>
    by_cases hpp : p' = p
    · -- the process that starts a call does not hold the mutex
      subst hpp
      have hin := (hex.inside_iff p').2 hin'
      rw [hidle] at hin
      cases hin
    · simp only [Function.update_of_ne hpp] at hp'
      exact hpop p' hp'
  | @look p q r hin hl hstep hr =>
    by_cases hpp : p' = p
    · subst hpp
      rw [(hex.inside_iff p').2 hin'] at hin
      cases hin
    · simp only [Function.update_of_ne hpp] at hp'
      exact hpop p' hp'
  | @lock p hl hfree =>
    -- only the new holder can be inside
    obtain rfl : p = p' := Option.some.inj hin'
    simp only [Function.update_self] at hp'
    have hpos := hfinds (Pc.popLock_of_locked hl hp')
    rwa [hex.semVal 1] at hpos
  | @inside p pc r val' slot' hholder hi =>
    obtain rfl : p = p' := by
      split at hin'
      · exact Option.some.inj hin'
      · cases hin'
    simp only [Function.update_self] at hp'
    obtain ⟨hbefore, hval⟩ := hi.popping hp'
    rw [hval]
    exact hpop p hbefore

/-- The `semop` of `push` on semaphore 1 never sleeps, and that of `pop` does not when there is a value. -/
private theorem not_sleeps_of_count {val : Nat → Int} {slot : Nat → V} {holder : Option P} {s : State P V} {p : P}
    (h : Exclusive b val slot holder s)
    (hp : (s.proc p).pc.atIncr = true ∨ ((s.proc p).pc.atDecr = true ∧ 0 < val 1)) : ¬ Sleeps s p := by
  obtain ⟨stack, hstack, hsem, -⟩ := h.attached p
  have hpos := h.count_nonneg
  have hok := h.pcOk p
  have hproc : s.proc p = ⟨some stack, (s.proc p).pc⟩ := by rw [← hstack]
  unfold Sleeps
  rw [State.step, h.kernel, hproc]
  generalize (s.proc p).pc = pc at hok hp
  rcases hp with hp | ⟨hp, hval⟩
  · cases pc with
    | push v pc =>
      cases pc with
      | incr buf =>
        obtain rfl : buf = ⟨1, 1⟩ := hok
        have hop := b.semop_kernel val slot (n := 1) (by omega) (show (1 : Int) ≠ 0 by omega)
        rw [if_neg (by omega)] at hop
        simp only [Proc.step, pushStep, hsem, hop, Option.bind_some]
        split <;> simp
      | _ => cases hp
    | _ => cases hp
  · cases pc with
    | pop pc =>
      cases pc with
      | decr out buf =>
        obtain rfl : buf = ⟨1, -1⟩ := hok
        have hop := b.semop_kernel val slot (n := 1) (by omega) (show (-1 : Int) ≠ 0 by omega)
        rw [if_neg (by omega)] at hop
        simp only [Proc.step, popStep, hsem, hop, Option.bind_some]
        split <;> simp
      | _ => cases hp
    | _ => cases hp

/-- In every run of attached processes in which a `pop` takes the mutex only while there is a value on the stack, no
state is a deadlock. -/
theorem not_deadlocked {val : Nat → Int} {slot : Nat → V} {s₀ s : State P V} {as : List (Action P V)}
    (h₀ : AtRest b val slot s₀) (hcalls : ∀ a ∈ as, a.noAttach)
    (hfinds : AllSteps State.step PopFindsValue s₀ as) (hrun : run State.step s₀ as = some s) :
    ¬ Deadlocked s := by
  have hsup₀ : b.Supplied s₀ := by
    refine ⟨val, slot, none, h₀.exclusive, ?_⟩
    intro p hp
    rw [h₀.quiescent p] at hp
    cases hp
  obtain ⟨val', slot', holder, hex, hpop⟩ :=
    run_invariant_of_good supplied_step hsup₀ (hfinds.and_of_mem hcalls) hrun
  rintro ⟨p, -, hcount, hsleeps, -⟩
  refine not_sleeps_of_count hex ?_ hsleeps
  rcases hcount with hincr | hdecr
  · exact .inl hincr
  · refine .inr ⟨hdecr, hpop p ?_⟩
    generalize (s.proc p).pc = pc at hdecr
    cases pc with
    | pop pc =>
      cases pc with
      | decr out buf => rfl
      | _ => cases hdecr
    | _ => cases hdecr

/-- The process `p` holds the mutex in a `pop` on an empty stack. -/
def Base.Stuck (b : Base) (p : P) (s : State P V) : Prop :=
  ∃ val slot, Exclusive b val slot (some p) s ∧ (s.proc p).pc.popping = true ∧ val 1 = 0

private theorem stuck_step {p : P} (s : State P V) (a : Action P V) (t : State P V) (h : b.Stuck p s) (ha : a.noAttach)
    (hs : s.step a = some t) : b.Stuck p t := by
  obtain ⟨val, slot, hex, hpc, hval⟩ := h
  have hin := Pc.inside_of_popping hpc
  obtain ⟨val', slot', holder', hm, hex'⟩ := exclusive_step hex ha hs
  cases hm with
  | @call q op hidle =>
    have hne : p ≠ q := by
      rintro rfl
      rw [hidle] at hin
      cases hin
    exact ⟨val, slot, hex', by simpa only [Function.update_of_ne hne] using hpc, hval⟩
  | @look q q' r hout hl hstep hr =>
    have hne : p ≠ q := by
      rintro rfl
      rw [hin] at hout
      cases hout
    exact ⟨val, slot, hex', by simpa only [Function.update_of_ne hne] using hpc, hval⟩
  | lock hl hfree => cases hfree
  | @inside q pc r val' slot' hholder hi =>
    obtain rfl : p = q := Option.some.inj hholder
    generalize (s.proc p).pc = pc₀ at hi hpc
    cases hi with
    | read hseg => exact ⟨val, slot, hex', by simp [Pc.popping], hval⟩
    | decr hpos => omega
    | _ => cases hpc

/-- A `pop` that takes the mutex on an empty stack never comes out, whatever the attached processes do. -/
theorem pop_stuck {val : Nat → Int} {slot : Nat → V} {s₀ s s' t : State P V} {as bs : List (Action P V)} {p : P}
    (h₀ : AtRest b val slot s₀) (hcalls : ∀ a ∈ as ++ .step p :: bs, a.noAttach)
    (hrun : run State.step s₀ as = some s) (hpop : (s.proc p).pc.popLock = true) (hempty : s.kernel.semVal 1 = 0)
    (hstep : s.step (.step p) = some s') (hrun' : run State.step s' bs = some t) : insiders t = {p} := by
  have hgood : AllSteps State.step (fun _ a => a.noAttach) s₀ as :=
    .of_mem fun a ha => hcalls a (List.mem_append_left _ ha)
  have hgood' : AllSteps State.step (fun _ a => a.noAttach) s' bs :=
    .of_mem fun a ha => hcalls a (List.mem_append_right _ (List.mem_cons_of_mem _ ha))
  have hex₀ : b.Excluded s₀ := ⟨val, slot, none, h₀.exclusive⟩
  obtain ⟨v, sl, hd, hex⟩ := run_invariant_of_good excluded_step hex₀ hgood hrun
  obtain ⟨count, buf, hpc⟩ : ∃ count buf, (s.proc p).pc = .pop (.lock count buf) := by
    generalize (s.proc p).pc = pc at hpop
    cases pc with
    | pop pc =>
      cases pc with
      | lock count buf => exact ⟨count, buf, rfl⟩
      | _ => cases hpop
    | _ => cases hpop
  have hstuck : b.Stuck p s' := by
    obtain ⟨v', sl', hd', hm, hex'⟩ := exclusive_step hex (a := .step p) trivial hstep
    cases hm with
    | look hin hl hs hr =>
      rw [hpc] at hl
      cases hl
    | lock hl hfree =>
      have hzero : v 1 = 0 := by rw [← hex.semVal 1, hempty]
      exact ⟨_, _, hex', by simp [hpc, Pc.locked, Pc.popping], by simpa using hzero⟩
    | inside hholder hi =>
      rw [hpc] at hi
      cases hi
  obtain ⟨v', sl', hex', -, -⟩ := run_invariant_of_good stuck_step hstuck hgood' hrun'
  rw [hex'.insiders_eq]
  exact Set.ext fun q => by simp [eq_comm]

end Steps

/-- A push and then a pop. -/
theorem not_deadlocked_pop_after_push : ∃ s : State Bool Nat,
    run State.step (emptyStack Bool 2) (.call true (.push 7) :: List.replicate 6 (.step true) ++
      .call false .pop :: List.replicate 3 (.step false)) = some s ∧ ¬ Deadlocked s := by
  refine ⟨_, rfl, ?_⟩
  refine @not_deadlocked Bool Nat _ _ _ _ _ _ _
    (.call true (.push 7) :: List.replicate 6 (.step true) ++ .call false .pop :: List.replicate 3 (.step false))
    (emptyStack_atRest Bool 2) ?_ (by decide) rfl
  simp [Action.noAttach]

/-- Two processes see the count 1 before either of them takes the mutex: the second one to pop sleeps inside. -/
theorem pop_deadlocked : ∃ (as : List (Action Bool Nat)) (s : State Bool Nat), Ready 2 (emptyStack Bool 2) ∧
    (∀ a ∈ as, a.access) ∧ run State.step (emptyStack Bool 2) as = some s ∧ Deadlocked s := by
  refine ⟨.call true (.push 7) :: List.replicate 6 (.step true) ++
    [.call true .pop, .step true, .call false .pop, .step false] ++ List.replicate 4 (.step true) ++
    List.replicate 2 (.step false), _, emptyStack_ready Bool (by omega) (by decide), ?_, rfl, ?_⟩
  · simp [Action.access]
  · refine ⟨false, rfl, .inr rfl, rfl, ?_⟩
    rintro (_ | _) hne
    · exact absurd rfl hne
    · exact .inl rfl

end UnixTasks.ShStack
