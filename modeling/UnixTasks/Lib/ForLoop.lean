import Mathlib.Data.List.Basic

/-!
# The for loop of C

`for (; cond; incr) body` on a state: the body is left at its end, by `continue` or by `break`, and the first two go on
to the increment.

* (`forLoop_of_list`) the rule for a loop that takes the elements of a list one after the other.
-/

namespace ForLoop

/-- How the body is left. -/
inductive Flow where
  | finished | continued | broken
  deriving DecidableEq, Repr

variable {σ α : Type*} {cond : σ → Bool} {incr : σ → σ} {body : σ → Flow × σ}

/-- The loop, for at most `fuel` tests of its condition. -/
def forLoop (cond : σ → Bool) (incr : σ → σ) (body : σ → Flow × σ) : Nat → σ → Option σ
  | 0, _ => none
  | fuel + 1, s =>
    if cond s then
      match body s with
      | (.broken, s) => some s
      | (_, s) => forLoop cond incr body fuel (incr s)
    else some s

theorem forLoop_of_cond_false {s : σ} {fuel : Nat} (h : cond s = false) :
    forLoop cond incr body (fuel + 1) s = some s := by
  rw [forLoop, h]
  rfl

/-- A body that does not break off leads to the increment. -/
theorem forLoop_of_cond_true {s : σ} {fuel : Nat} (h : cond s = true) (hbody : (body s).1 ≠ .broken) :
    forLoop cond incr body (fuel + 1) s = forLoop cond incr body fuel (incr (body s).2) := by
  rw [forLoop, if_pos h]
  generalize body s = left at hbody
  obtain ⟨flow, t⟩ := left
  cases flow with
  | finished | continued => rfl
  | broken => exact absurd rfl hbody

/-- `I xs` holds before the condition is tested when the elements `xs` are left: every round takes the first of them,
and the condition fails when there is none. -/
theorem forLoop_of_list {I : List α → σ → Prop} (hnil : ∀ s, I [] s → cond s = false)
    (hcons : ∀ x xs s, I (x :: xs) s → cond s = true ∧ (body s).1 ≠ .broken ∧ I xs (incr (body s).2))
    {xs : List α} {s : σ} {fuel : Nat} (h : I xs s) (hfuel : xs.length < fuel) :
    ∃ t, forLoop cond incr body fuel s = some t ∧ I [] t := by
  induction xs generalizing s fuel with
  | nil =>
    obtain ⟨fuel, rfl⟩ : ∃ n, fuel = n + 1 := ⟨fuel - 1, by omega⟩
    exact ⟨s, forLoop_of_cond_false (hnil s h), h⟩
  | cons x xs ih =>
    obtain ⟨fuel, rfl⟩ : ∃ n, fuel = n + 1 := ⟨fuel - 1, by omega⟩
    obtain ⟨hcond, hbody, hnext⟩ := hcons x xs s h
    rw [forLoop_of_cond_true hcond hbody]
    rw [List.length_cons] at hfuel
    exact ih hnext (by omega)

end ForLoop
