import UnixTasks.Lib.Run

/-!
# Objects and linearization points

Several callers use one object at the same time.  What the object should do is given for one call after another
(`answers`); a running system makes many small steps for each call.  If every call has one step at which it takes
effect, the calls in the order of these steps are a sequential history, and the system is right when each caller gets
the results that this history has for it.

* (`history`) the calls in the order in which they take effect in a run;
* (`linearizable`) the rule: when each step returns what has been decided and decides what the object answers, so does
  a whole run.
-/

namespace Linearization

open ActionSystem

variable {X O R P : Type*}

/-! ### One call after another -/

/-- The object after a sequence of calls. -/
def after (obj : X → O → X × R) (x : X) (calls : List (P × O)) : X := calls.foldl (fun x c => (obj x c.2).1) x

/-- The results of a sequence of calls. -/
def answers (obj : X → O → X × R) : X → List (P × O) → List (P × R)
  | _, [] => []
  | x, (p, op) :: calls => (p, (obj x op).2) :: answers obj (obj x op).1 calls

variable {obj : X → O → X × R}

theorem after_append (x : X) (calls calls' : List (P × O)) :
    after obj x (calls ++ calls') = after obj (after obj x calls) calls' := List.foldl_append ..

theorem answers_append (x : X) (calls calls' : List (P × O)) :
    answers obj x (calls ++ calls') = answers obj x calls ++ answers obj (after obj x calls) calls' := by
  induction calls generalizing x with
  | nil => rfl
  | cons c calls ih => rw [List.cons_append, answers, ih]; rfl

/-! ### What belongs to one caller -/

variable [DecidableEq P]

/-- The entries of one caller. -/
def ofCaller (p : P) (l : List (P × R)) : List R := l.filterMap fun e => if e.1 = p then some e.2 else none

@[simp] theorem ofCaller_nil (p : P) : ofCaller p ([] : List (P × R)) = [] := rfl

theorem ofCaller_append (p : P) (l l' : List (P × R)) : ofCaller p (l ++ l') = ofCaller p l ++ ofCaller p l' :=
  List.filterMap_append ..

theorem ofCaller_singleton (p q : P) (r : R) : ofCaller p [(q, r)] = if q = p then [r] else [] := by
  by_cases h : q = p <;> simp [ofCaller, h]

/-! ### Runs -/

variable {σ α : Type*} {step : σ → α → Option σ} {point : σ → α → Option (P × O)}

/-- The calls that take effect in a run, in this order. -/
def history (step : σ → α → Option σ) (point : σ → α → Option (P × O)) : σ → List α → List (P × O)
  | _, [] => []
  | s, a :: as => (point s a).toList ++
    match step s a with
    | some t => history step point t as
    | none => []

omit [DecidableEq P] in
theorem history_cons {s t : σ} {a : α} {as : List α} (ha : step s a = some t) :
    history step point s (a :: as) = (point s a).toList ++ history step point t as := by
  rw [history, ha]

/-- One step keeps the books: what it returns to a caller is what had been decided for it, and what is decided in this
step is what the object answers. -/
def KeepsBooks (obj : X → O → X × R) (log : σ → List (P × R)) (decided : σ → P → Option R) (x : X)
    (call : Option (P × O)) (s t : σ) : Prop :=
  ∃ new, log t = log s ++ new ∧ ∀ p, ofCaller p new ++ (decided t p).toList =
    (decided s p).toList ++ ofCaller p (answers obj x call.toList)

/-- **The rule.**  `Sim x s` says that the state `s` stands for the object `x`.  If every good step leads to a state
that stands for the object after the call that takes effect in it, and keeps the books, then in every run each caller
has got the results that the object gives in the sequential history, but for the one that is decided and not yet
returned. -/
theorem linearizable {Sim : X → σ → Prop} {good : σ → α → Prop} {log : σ → List (P × R)}
    {decided : σ → P → Option R}
    (hstep : ∀ x s a t, Sim x s → good s a → step s a = some t →
      Sim (after obj x (point s a).toList) t ∧ KeepsBooks obj log decided x (point s a) s t)
    {x : X} {s t : σ} {as : List α} (hs : Sim x s) (hgood : AllSteps step good s as) (hrun : run step s as = some t) :
    Sim (after obj x (history step point s as)) t ∧
      ∃ new, log t = log s ++ new ∧ ∀ p, ofCaller p new ++ (decided t p).toList =
        (decided s p).toList ++ ofCaller p (answers obj x (history step point s as)) := by
  induction as generalizing x s with
  | nil =>
    obtain rfl : s = t := Option.some.inj hrun
    exact ⟨hs, [], (List.append_nil _).symm, fun p => by simp [history, answers]⟩
  | cons a as ih =>
    obtain ⟨u, hu, hrun⟩ := run_cons_eq_some.1 hrun
    obtain ⟨ha, hgood⟩ := (allSteps_cons hu).1 hgood
    obtain ⟨hsim, new, hlog, hbooks⟩ := hstep x s a u hs ha hu
    obtain ⟨hsim', new', hlog', hbooks'⟩ := ih hsim hgood hrun
    rw [history_cons hu]
    refine ⟨by rwa [after_append], new ++ new', by rw [hlog', hlog, List.append_assoc], ?_⟩
    intro p
    rw [ofCaller_append, List.append_assoc, hbooks', ← List.append_assoc, hbooks, answers_append, ofCaller_append,
      List.append_assoc]

end Linearization
