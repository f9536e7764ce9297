import Mathlib.Data.List.Basic

/-!
# Bounded last-in-first-out lists

The abstract stack: a list of values, most recent first, that never outgrows its capacity.  The bound is a field of
the structure, so an overfull stack cannot be built.
-/

/-- A stack of at most `cap` values. -/
@[ext] structure Lifo (V : Type*) where
  cap : Nat
  items : List V
  length_le : items.length ≤ cap
  deriving DecidableEq, Repr

namespace Lifo

variable {V : Type*}

def empty (V : Type*) (cap : Nat) : Lifo V := ⟨cap, [], Nat.zero_le _⟩

/-- The stack with `v` on top; `none` when it is full. -/
def push? (l : Lifo V) (v : V) : Option (Lifo V) :=
  if h : l.items.length < l.cap then some ⟨l.cap, v :: l.items, h⟩ else none

/-- The top value and the stack without it; `none` when it is empty. -/
def pop? : Lifo V → Option (V × Lifo V)
  | ⟨_, [], _⟩ => none
  | ⟨cap, v :: items, h⟩ => some (v, ⟨cap, items, Nat.le_of_succ_le h⟩)

@[simp] theorem cap_empty (cap : Nat) : (empty V cap).cap = cap := rfl

theorem push?_eq_none {l : Lifo V} {v : V} : l.push? v = none ↔ l.items.length = l.cap := by
  have hle := l.length_le
  unfold push?
  split
  · simp; omega
  · simp; omega

theorem pop?_eq_none {l : Lifo V} : l.pop? = none ↔ l.items = [] := by
  rcases l with ⟨cap, items, h⟩
  cases items <;> simp [pop?]

theorem push?_eq_some {l l' : Lifo V} {v : V} :
    l.push? v = some l' ↔ l.items.length < l.cap ∧ l'.cap = l.cap ∧ l'.items = v :: l.items := by
  unfold push?
  split
  · rename_i hlt
    rw [Option.some.injEq, Lifo.ext_iff]
    simp only [hlt, true_and]
    exact and_congr eq_comm eq_comm
  · rename_i hge
    simp only [reduceCtorEq, hge, false_and]

theorem pop?_eq_some {l l' : Lifo V} {v : V} :
    l.pop? = some (v, l') ↔ l'.cap = l.cap ∧ l.items = v :: l'.items := by
  rcases l with ⟨cap, items, h⟩
  rcases l' with ⟨cap', items', h'⟩
  cases items with
  | nil => simp [pop?]
  | cons w items =>
    simp only [pop?, Option.some.injEq, Prod.mk.injEq, Lifo.mk.injEq, List.cons.injEq]
    constructor
    · rintro ⟨rfl, rfl, rfl⟩
      exact ⟨rfl, rfl, rfl⟩
    · rintro ⟨rfl, rfl, rfl⟩
      exact ⟨rfl, rfl, rfl⟩

end Lifo
