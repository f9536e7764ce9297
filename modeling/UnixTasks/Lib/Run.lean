import Mathlib.Data.List.Basic

/-!
# Systems that move by actions

A system is a partial step function `σ → α → Option σ`: the action says who moves and how every choice that the
system leaves open is made, and `none` says that the action is not enabled.  An interleaving of several parties is
then a list of actions, a run is the composition of its steps, and a statement about every schedule is a statement
about every list of actions.

* (`run`) the state after a list of actions;
* (`AllSteps`) every step of a run meets a condition on the state before it;
* (`run_invariant`, `run_invariant_of_good`) the two induction rules: what one step keeps, a run keeps;
* (`outputs`, `run_outputs`) what the steps of a run put out, and the induction rule for it;
* (`length_le_of_credit`, `exists_last`) a run whose steps are paid for has a bounded length, and some run is last;
* (`countSteps`, `run_balance`) a quantity that steps raise or lower by one, and how often they do;
* (`Leads`) every run comes to a state with a property, and all states before it have another one.
-/

namespace ActionSystem

variable {σ α : Type*} {step : σ → α → Option σ}

/-- The state after the actions `as` from `s`, when each of them is enabled in its turn. -/
def run (step : σ → α → Option σ) : σ → List α → Option σ
  | s, [] => some s
  | s, a :: as => (step s a).bind fun t => run step t as

/-- Some run leads from `s` to `t`. -/
def Reachable (step : σ → α → Option σ) (s t : σ) : Prop :=
  ∃ as, run step s as = some t

/-- In the run of `as` from `s` every step is taken in a state in which `good` holds of the action. -/
def AllSteps (step : σ → α → Option σ) (good : σ → α → Prop) : σ → List α → Prop
  | _, [] => True
  | s, a :: as => good s a ∧
    match step s a with
    | some t => AllSteps step good t as
    | none => True

instance decidableAllSteps (good : σ → α → Prop) [∀ s a, Decidable (good s a)] :
    ∀ (s : σ) (as : List α), Decidable (AllSteps step good s as)
  | _, [] => inferInstanceAs (Decidable True)
  | s, a :: as =>
    have : Decidable (match step s a with | some t => AllSteps step good t as | none => True) :=
      match step s a with
      | some t => decidableAllSteps good t as
      | none => inferInstanceAs (Decidable True)
    inferInstanceAs (Decidable (_ ∧ _))

/-- How many steps of the run of `as` from `s` meet a condition. -/
def countSteps (step : σ → α → Option σ) (C : σ → α → Bool) : σ → List α → Nat
  | _, [] => 0
  | s, a :: as => (if C s a then 1 else 0) +
    match step s a with
    | some t => countSteps step C t as
    | none => 0

@[simp] theorem run_nil (s : σ) : run step s [] = some s := rfl

@[simp] theorem run_cons (s : σ) (a : α) (as : List α) :
    run step s (a :: as) = (step s a).bind fun t => run step t as := rfl

theorem run_cons_eq_some {s u : σ} {a : α} {as : List α} :
    run step s (a :: as) = some u ↔ ∃ t, step s a = some t ∧ run step t as = some u := by
  rw [run_cons, Option.bind_eq_some_iff]

theorem run_append (s : σ) (as bs : List α) :
    run step s (as ++ bs) = (run step s as).bind fun t => run step t bs := by
  induction as generalizing s with
  | nil => rfl
  | cons a as ih =>
    rw [List.cons_append, run_cons, run_cons, Option.bind_assoc]
    exact congrArg _ (funext fun t => ih t)

theorem run_append_eq_some {s u : σ} {as bs : List α} :
    run step s (as ++ bs) = some u ↔ ∃ t, run step s as = some t ∧ run step t bs = some u := by
  rw [run_append, Option.bind_eq_some_iff]

theorem allSteps_cons {good : σ → α → Prop} {s t : σ} {a : α} {as : List α} (ha : step s a = some t) :
    AllSteps step good s (a :: as) ↔ good s a ∧ AllSteps step good t as := by
  rw [AllSteps, ha]

theorem countSteps_cons {C : σ → α → Bool} {s t : σ} {a : α} {as : List α} (ha : step s a = some t) :
    countSteps step C s (a :: as) = (if C s a then 1 else 0) + countSteps step C t as := by
  rw [countSteps, ha]

/-- Actions that are good in every state. -/
theorem AllSteps.of_forall {good : σ → α → Prop} {s : σ} {as : List α} (h : ∀ a ∈ as, ∀ s, good s a) :
    AllSteps step good s as := by
  induction as generalizing s with
  | nil => trivial
  | cons a as ih =>
    refine ⟨h a (List.mem_cons_self ..) s, ?_⟩
    cases hs : step s a with
    | none => trivial
    | some t => exact ih fun b hb => h b (List.mem_cons_of_mem _ hb)

theorem AllSteps.of_mem {C : α → Prop} {s : σ} {as : List α} (hC : ∀ a ∈ as, C a) :
    AllSteps step (fun _ a => C a) s as := AllSteps.of_forall fun a ha _ => hC a ha

/-- The steps of a run, and those of the run that goes on from its last state. -/
theorem allSteps_append {good : σ → α → Prop} {s t : σ} {as bs : List α} (hrun : run step s as = some t) :
    AllSteps step good s (as ++ bs) ↔ AllSteps step good s as ∧ AllSteps step good t bs := by
  induction as generalizing s with
  | nil =>
    obtain rfl : s = t := Option.some.inj hrun
    exact (and_iff_right trivial).symm
  | cons a as ih =>
    obtain ⟨u, hu, hrun⟩ := run_cons_eq_some.1 hrun
    rw [List.cons_append, allSteps_cons hu, allSteps_cons hu, ih hrun, and_assoc]

theorem allSteps_and {good P : σ → α → Prop} {s : σ} {as : List α} :
    AllSteps step (fun s a => good s a ∧ P s a) s as ↔ AllSteps step good s as ∧ AllSteps step P s as := by
  induction as generalizing s with
  | nil => exact (and_iff_right trivial).symm
  | cons a as ih =>
    cases hs : step s a with
    | none => simp [AllSteps, hs]
    | some t => rw [allSteps_cons hs, allSteps_cons hs, allSteps_cons hs, ih, and_and_and_comm]

/-- A condition on the actions of a run joins the condition on its steps. -/
theorem AllSteps.and_of_mem {good : σ → α → Prop} {C : α → Prop} {s : σ} {as : List α} (hC : ∀ a ∈ as, C a)
    (h : AllSteps step good s as) : AllSteps step (fun s a => C a ∧ good s a) s as :=
  allSteps_and.2 ⟨.of_mem hC, h⟩

/-- What the steps of the run of `as` from `s` put out, in order. -/
def outputs {β : Type*} (step : σ → α → Option σ) (out : σ → α → List β) : σ → List α → List β
  | _, [] => []
  | s, a :: as => out s a ++
    match step s a with
    | some t => outputs step out t as
    | none => []

/-- What every step keeps, every run keeps. -/
theorem run_invariant {Inv : σ → Prop} (hstep : ∀ s a t, Inv s → step s a = some t → Inv t)
    {s t : σ} {as : List α} (hs : Inv s) (hrun : run step s as = some t) : Inv t := by
  induction as generalizing s with
  | nil => cases hrun; exact hs
  | cons a as ih =>
    obtain ⟨u, hu, hrun⟩ := run_cons_eq_some.1 hrun
    exact ih (hstep s a u hs hu) hrun

/-- A relation to what has been put out that every step keeps, every run keeps. -/
theorem run_outputs {β : Type*} {out : σ → α → List β} {Inv : σ → List β → Prop}
    (hstep : ∀ s a t xs, Inv s xs → step s a = some t → Inv t (xs ++ out s a)) {s t : σ} {as : List α} {xs : List β}
    (hs : Inv s xs) (hrun : run step s as = some t) : Inv t (xs ++ outputs step out s as) := by
  induction as generalizing s xs with
  | nil =>
    cases hrun
    rwa [outputs, List.append_nil]
  | cons a as ih =>
    obtain ⟨u, hu, hrun⟩ := run_cons_eq_some.1 hrun
    rw [outputs, hu, ← List.append_assoc]
    exact ih (hstep s a u xs hs hu) hrun

/-- A run is no longer than a credit from which every step takes something. -/
theorem length_le_of_credit {Credit : Nat → σ → Prop}
    (hpays : ∀ n s a t, Credit n s → step s a = some t → ∃ m < n, Credit m t) {n : Nat} {s t : σ} {as : List α}
    (hs : Credit n s) (hrun : run step s as = some t) : as.length ≤ n := by
  induction as generalizing s n with
  | nil => exact Nat.zero_le _
  | cons a as ih =>
    obtain ⟨u, hu, hrun⟩ := run_cons_eq_some.1 hrun
    obtain ⟨m, hm, hcredit⟩ := hpays n s a u hs hu
    exact Nat.lt_of_le_of_lt (ih hcredit hrun) hm

/-- What every step that meets a condition keeps, every run whose steps all meet it keeps. -/
theorem run_invariant_of_good {Inv : σ → Prop} {good : σ → α → Prop}
    (hstep : ∀ s a t, Inv s → good s a → step s a = some t → Inv t)
    {s t : σ} {as : List α} (hs : Inv s) (hgood : AllSteps step good s as)
    (hrun : run step s as = some t) : Inv t := by
  induction as generalizing s with
  | nil => cases hrun; exact hs
  | cons a as ih =>
    obtain ⟨u, hu, hrun⟩ := run_cons_eq_some.1 hrun
    obtain ⟨ha, hgood⟩ := (allSteps_cons hu).1 hgood
    exact ih (hstep s a u hs ha hu) hgood hrun

/-- What holds of every step from a state of an invariant holds of every step of a run. -/
theorem AllSteps.of_invariant {Inv : σ → Prop} {good P : σ → α → Prop}
    (hstep : ∀ s a t, Inv s → good s a → step s a = some t → Inv t)
    (hP : ∀ s a, Inv s → good s a → P s a) {s : σ} {as : List α} (hs : Inv s)
    (hgood : AllSteps step good s as) : AllSteps step P s as := by
  induction as generalizing s with
  | nil => trivial
  | cons a as ih =>
    obtain ⟨ha, hgood⟩ := hgood
    refine ⟨hP s a hs ha, ?_⟩
    cases ht : step s a with
    | none => trivial
    | some t =>
      rw [ht] at hgood
      exact ih (hstep s a t hs ha ht) hgood

/-- In the states of an invariant that good steps keep, two conditions on a step that agree there hold of the same
runs. -/
theorem allSteps_congr {Inv : σ → Prop} {good P : σ → α → Prop}
    (hstep : ∀ s a t, Inv s → good s a → step s a = some t → Inv t)
    (hiff : ∀ s a, Inv s → (good s a ↔ P s a)) {s : σ} {as : List α} (hs : Inv s) :
    AllSteps step good s as ↔ AllSteps step P s as := by
  refine ⟨fun h => h.of_invariant hstep (fun s a hs => (hiff s a hs).1) hs, ?_⟩
  intro h
  refine h.of_invariant (fun s a t hs ha => hstep s a t hs ((hiff s a hs).2 ha)) ?_ hs
  exact fun s a hs => (hiff s a hs).2

/-- Every step leads to a state with `Q` if and only if every state on the way has it. -/
theorem allSteps_leads_iff {Q : σ → Prop} {s : σ} {as : List α} (hs : Q s) :
    AllSteps step (fun s a => ∀ t, step s a = some t → Q t) s as ↔
      ∀ pre t, pre <+: as → run step s pre = some t → Q t := by
  constructor
  · intro h pre t hpre hrun
    induction pre generalizing s as with
    | nil =>
      obtain rfl : s = t := Option.some.inj hrun
      exact hs
    | cons a pre ih =>
      obtain ⟨as', rfl, hpre'⟩ := List.cons_prefix_iff.1 hpre
      obtain ⟨u, hu, hrun⟩ := run_cons_eq_some.1 hrun
      obtain ⟨ha, h⟩ := (allSteps_cons hu).1 h
      exact ih (ha u hu) h hpre' hrun
  · intro h
    induction as generalizing s with
    | nil => trivial
    | cons a as ih =>
      have ha : ∀ t, step s a = some t → Q t := fun t ht =>
        h [a] t (List.cons_prefix_cons.2 ⟨rfl, List.nil_prefix⟩) (run_cons_eq_some.2 ⟨t, ht, rfl⟩)
      refine ⟨ha, ?_⟩
      cases hu : step s a with
      | none => trivial
      | some u =>
        refine ih (ha u hu) fun pre t hpre hrun => ?_
        exact h (a :: pre) t (List.cons_prefix_cons.2 ⟨rfl, hpre⟩) (run_cons_eq_some.2 ⟨u, hu, hrun⟩)

/-- Where a condition on a step says exactly when the step leads from `Q` to `Q`, the runs whose states all have `Q` are
those whose steps all meet the condition. -/
theorem run_keeps_iff {Q : σ → Prop} {good : σ → α → Prop} {C : α → Prop}
    (hiff : ∀ s a t, Q s → C a → step s a = some t → (Q t ↔ good s a)) {s u : σ} {as : List α} (hs : Q s)
    (hC : ∀ a ∈ as, C a) (hrun : run step s as = some u) :
    (∀ pre t, pre <+: as → run step s pre = some t → Q t) ↔ AllSteps step good s as := by
  rw [← allSteps_leads_iff hs]
  induction as generalizing s with
  | nil => exact Iff.rfl
  | cons a as ih =>
    obtain ⟨v, hv, hrun⟩ := run_cons_eq_some.1 hrun
    have hkeep : Q v ↔ good s a := hiff s a v hs (hC a (List.mem_cons_self ..)) hv
    have hCs : ∀ b ∈ as, C b := fun b hb => hC b (List.mem_cons_of_mem _ hb)
    rw [allSteps_cons hv, allSteps_cons hv]
    constructor
    · intro ⟨hlead, hrest⟩
      exact ⟨hkeep.1 (hlead v hv), (ih (hlead v hv) hCs hrun).1 hrest⟩
    · intro ⟨hgood, hrest⟩
      have hQ : Q v := hkeep.2 hgood
      refine ⟨?_, (ih hQ hCs hrun).2 hrest⟩
      intro t ht
      rwa [← Option.some.inj (hv.symm.trans ht)]

/-- A quantity that one step raises or lowers by one is raised and lowered by a run as often as its steps do it. -/
theorem run_balance {Inv : σ → Prop} {good : σ → α → Prop} {f : σ → Int} {up down : σ → α → Bool}
    (hstep : ∀ s a t, Inv s → good s a → step s a = some t →
      Inv t ∧ f t = f s + (if up s a then 1 else 0) - (if down s a then 1 else 0))
    {s t : σ} {as : List α} (hs : Inv s) (hgood : AllSteps step good s as) (hrun : run step s as = some t) :
    f t = f s + countSteps step up s as - countSteps step down s as := by
  induction as generalizing s with
  | nil =>
    cases hrun
    simp [countSteps]
  | cons a as ih =>
    obtain ⟨u, hu, hrun⟩ := run_cons_eq_some.1 hrun
    obtain ⟨ha, hgood⟩ := (allSteps_cons hu).1 hgood
    obtain ⟨hinv, hf⟩ := hstep s a u hs ha hu
    rw [ih hinv hgood hrun, hf, countSteps_cons hu, countSteps_cons hu]
    split <;> split <;> push_cast <;> omega

/-- A run with a step that does not meet the condition splits at the first such step. -/
theorem exists_first_bad {good : σ → α → Prop} {s u : σ} {as : List α} (hrun : run step s as = some u)
    (hbad : ¬ AllSteps step good s as) :
    ∃ pre a post t t', as = pre ++ a :: post ∧ run step s pre = some t ∧ AllSteps step good s pre ∧
      ¬ good t a ∧ step t a = some t' ∧ run step t' post = some u := by
  induction as generalizing s with
  | nil => exact absurd trivial hbad
  | cons a as ih =>
    obtain ⟨t, ht, hrun'⟩ := run_cons_eq_some.1 hrun
    by_cases ha : good s a
    · have hrest : ¬ AllSteps step good t as := fun h => hbad ((allSteps_cons ht).2 ⟨ha, h⟩)
      obtain ⟨pre, b, post, v, v', rfl, h1, h2, h3, h4, h5⟩ := ih hrun' hrest
      exact ⟨a :: pre, b, post, v, v', rfl, run_cons_eq_some.2 ⟨t, ht, h1⟩,
        (allSteps_cons ht).2 ⟨ha, h2⟩, h3, h4, h5⟩
    · exact ⟨[], a, as, s, t, rfl, rfl, trivial, ha, ht, hrun'⟩

theorem Reachable.invariant {Inv : σ → Prop} (hstep : ∀ s a t, Inv s → step s a = some t → Inv t)
    {s t : σ} (hs : Inv s) (h : Reachable step s t) : Inv t := by
  obtain ⟨as, hrun⟩ := h
  exact run_invariant hstep hs hrun

/-- Every run from `s` comes to a state with `Q`, without getting stuck, and all states before have `I`. -/
inductive Leads (step : σ → α → Option σ) (I Q : σ → Prop) : σ → Prop where
  | now {s : σ} (h : Q s) : Leads step I Q s
  | later {s t : σ} {a : α} (hI : I s) (hstep : step s a = some t)
      (h : ∀ a t, step s a = some t → Leads step I Q t) : Leads step I Q s

theorem Leads.cases {I Q : σ → Prop} {s : σ} (h : Leads step I Q s) (hQ : ¬ Q s) :
    I s ∧ ∀ a t, step s a = some t → Leads step I Q t := by
  cases h with
  | now h => exact absurd h hQ
  | later hI hstep h => exact ⟨hI, h⟩

/-- What the steps before `Q` keep, holds all the way and of the state with `Q` too. -/
theorem Leads.and_invariant {I Q Inv : σ → Prop}
    (hstep : ∀ s a t, I s → Inv s → ¬ Q s → step s a = some t → Inv t) {s : σ} (hs : Inv s) (h : Leads step I Q s) :
    Leads step (fun t => I t ∧ Inv t) (fun t => Q t ∧ Inv t) s := by
  induction h with
  | now h => exact .now ⟨h, hs⟩
  | @later s t a hI ha h ih =>
    by_cases hQ : Q s
    · exact .now ⟨hQ, hs⟩
    · exact .later ⟨hI, hs⟩ ha fun a t hat => ih a t hat (hstep s a t hI hs hQ hat)

/-- Another system whose steps are the same wherever this one goes on. -/
theorem Leads.congr {step' : σ → α → Option σ} {I Q : σ → Prop}
    (heq : ∀ s a t, I s → step s a = some t → step' s = step s) {s : σ} (h : Leads step I Q s) : Leads step' I Q s := by
  induction h with
  | now h => exact .now h
  | @later s t a hI ha h ih =>
    have hsame := heq s a t hI ha
    refine .later hI (hsame ▸ ha) fun a t hat => ih a t ?_
    rwa [hsame] at hat

theorem Leads.exists {I Q : σ → Prop} {s : σ} (h : Leads step I Q s) : ∃ t, Q t := by
  induction h with
  | now h => exact ⟨_, h⟩
  | later hI ha h ih => exact ih _ _ ha

theorem Leads.mono {I I' Q Q' : σ → Prop} (hI : ∀ s, I s → I' s) (hQ : ∀ s, Q s → Q' s) {s : σ}
    (h : Leads step I Q s) : Leads step I' Q' s := by
  induction h with
  | now h => exact .now (hQ _ h)
  | later hs ha h ih => exact .later (hI _ hs) ha ih

end ActionSystem
