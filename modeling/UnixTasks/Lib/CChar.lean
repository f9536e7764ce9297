import Mathlib.Data.BitVec

/-!
# Characters of C

A `char` is a byte, and signed: where an `int` is wanted (in a comparison, in arithmetic, as the argument of `isspace`)
it stands for a number from -128 to 127.
-/

/-- A `char`. -/
abbrev CChar := BitVec 8

namespace CChar

/-- The `char` of an ASCII character. -/
def chr (c : Char) : CChar := BitVec.ofNat 8 c.toNat

/-- `isspace` in the C locale: blank, `\t`, `\n`, `\v`, `\f` and `\r`. -/
def isspace (c : CChar) : Bool := c.toInt == 32 || (9 ≤ c.toInt && c.toInt ≤ 13)

/-- The characters from `0` to `9`. -/
def isdigit (c : CChar) : Bool := 48 ≤ c.toInt && c.toInt ≤ 57

/-- The digit that a character stands for. -/
def digit (c : CChar) : Nat := (c.toInt - 48).toNat

theorem isspace_iff {c : CChar} : c.isspace = true ↔ c.toInt = 32 ∨ (9 ≤ c.toInt ∧ c.toInt ≤ 13) := by
  simp [isspace]

theorem isdigit_iff {c : CChar} : c.isdigit = true ↔ 48 ≤ c.toInt ∧ c.toInt ≤ 57 := by
  simp [isdigit]

theorem digit_eq {c : CChar} (h : c.isdigit = true) : (c.digit : Int) = c.toInt - 48 := by
  rw [isdigit_iff] at h
  unfold digit
  omega

/-- The number that a list of decimal digits stands for. -/
def decimal (ds : List CChar) : Nat := ds.foldl (fun n c => 10 * n + c.digit) 0

@[simp] theorem decimal_nil : decimal [] = 0 := rfl

theorem decimal_append_singleton (ds : List CChar) (c : CChar) : decimal (ds ++ [c]) = 10 * decimal ds + c.digit := by
  simp [decimal]

end CChar
