import Mathlib.Data.Nat.Digits.Lemmas
import UnixTasks.Lib.CString

/-!
# Decimal texts

`%d` of stdio.h, and what `atoi` reads from a part of such a text.  A text that is filled up with zeros on the right and
cut to `w` digits keeps the first `w` digits of the number (`leading`).

* (`decimal_take_natText`) the number that such a text stands for;
* (`leading_lt`, `le_leading`) it has `w` digits;
* (`atoi_digits`, `atoi_minus`) `atoi` on a text of digits.
-/

namespace CString

open CChar

/-- The character of a decimal digit. -/
def digitChar (d : Nat) : CChar := BitVec.ofNat 8 (48 + d)

def natText (n : Nat) : List CChar := if n = 0 then [chr '0'] else (Nat.digits 10 n).reverse.map digitChar

/-- `%d`. -/
def intText (z : Int) : List CChar := if z < 0 then chr '-' :: natText z.natAbs else natText z.natAbs

/-- All characters are digits. -/
def AllDigits (s : List CChar) : Prop := ∀ c ∈ s, isdigit c = true

/-- The first `w` digits of the number, with zeros behind a number that has fewer. -/
def leading (w n : Nat) : Nat := n * 10 ^ w / 10 ^ (Nat.digits 10 n).length

/-! ### Reading digits -/

theorem decimal_append (a b : List CChar) : decimal (a ++ b) = decimal a * 10 ^ b.length + decimal b := by
  induction b using List.reverseRecOn with
  | nil => simp
  | append_singleton b c ih =>
    rw [← List.append_assoc, decimal_append_singleton, decimal_append_singleton, ih, List.length_append,
      List.length_singleton, pow_succ]
    ring

theorem digit_le {c : CChar} (h : isdigit c = true) : digit c ≤ 9 := by
  have heq := digit_eq h
  have hle := (isdigit_iff.1 h).2
  omega

theorem decimal_lt {s : List CChar} (h : AllDigits s) : decimal s < 10 ^ s.length := by
  induction s using List.reverseRecOn with
  | nil => simp
  | append_singleton s c ih =>
    have hlt := ih fun x hx => h x (List.mem_append_left _ hx)
    have hc := digit_le (h c (by simp))
    rw [decimal_append_singleton, List.length_append, List.length_singleton, pow_succ]
    omega

theorem decimal_take {s : List CChar} (h : AllDigits s) (k : Nat) :
    decimal (s.take k) = decimal s / 10 ^ (s.length - k) := by
  have hsplit := decimal_append (s.take k) (s.drop k)
  rw [List.take_append_drop, List.length_drop] at hsplit
  have hlt := decimal_lt (s := s.drop k) fun c hc => h c (List.mem_of_mem_drop hc)
  rw [List.length_drop] at hlt
  rw [hsplit, mul_comm, Nat.mul_add_div (by positivity), Nat.div_eq_of_lt hlt, Nat.add_zero]

theorem decimal_replicate_zero (m : Nat) : decimal (List.replicate m (chr '0')) = 0 := by
  induction m with
  | zero => rfl
  | succ m ih =>
    rw [List.replicate_succ', decimal_append_singleton, ih]
    decide

/-! ### The text of a number -/

theorem digit_digitChar {d : Nat} (h : d < 10) : digit (digitChar d) = d := by
  have hall : ∀ d < 10, digit (digitChar d) = d := by decide
  exact hall d h

theorem isdigit_digitChar {d : Nat} (h : d < 10) : isdigit (digitChar d) = true := by
  have hall : ∀ d < 10, isdigit (digitChar d) = true := by decide
  exact hall d h

theorem decimal_map_digitChar {ds : List Nat} (h : ∀ d ∈ ds, d < 10) :
    decimal (ds.reverse.map digitChar) = Nat.ofDigits 10 ds := by
  induction ds with
  | nil => rfl
  | cons d ds ih =>
    have hd := digit_digitChar (h d List.mem_cons_self)
    rw [List.reverse_cons, List.map_append, List.map_singleton, decimal_append_singleton, hd,
      ih fun x hx => h x (List.mem_cons_of_mem _ hx), Nat.ofDigits_cons]
    exact Nat.add_comm _ _

theorem decimal_natText (n : Nat) : decimal (natText n) = n := by
  rw [natText]
  split
  · rename_i h
    rw [h]
    decide
  · rw [decimal_map_digitChar fun d hd => Nat.digits_lt_base (by decide) hd, Nat.ofDigits_digits]

theorem allDigits_natText (n : Nat) : AllDigits (natText n) := by
  intro c hc
  rw [natText] at hc
  split at hc
  · rw [List.mem_singleton.1 hc]
    decide
  · obtain ⟨d, hd, rfl⟩ := List.mem_map.1 hc
    exact isdigit_digitChar (Nat.digits_lt_base (by decide) (List.mem_reverse.1 hd))

theorem length_natText {n : Nat} (h : n ≠ 0) : (natText n).length = (Nat.digits 10 n).length := by
  rw [natText, if_neg h, List.length_map, List.length_reverse]

/-- The text with zeros behind it, cut to `w` digits. -/
theorem decimal_take_natText (n : Nat) {w m : Nat} (hw : w ≤ m) :
    decimal ((natText n ++ List.replicate m (chr '0')).take w) = leading w n := by
  have hdigits : AllDigits (natText n ++ List.replicate m (chr '0')) := by
    intro c hc
    rcases List.mem_append.1 hc with hc | hc
    · exact allDigits_natText n c hc
    · rw [List.eq_of_mem_replicate hc]
      decide
  rw [decimal_take hdigits, decimal_append, decimal_natText, decimal_replicate_zero, List.length_append,
    List.length_replicate, Nat.add_zero, leading]
  by_cases h : n = 0
  · rw [h, Nat.zero_mul, Nat.zero_mul, Nat.zero_div, Nat.zero_div]
  · -- the digits that are cut off make a factor of both numbers
    have hm : m = w + (m - w) := by omega
    have hcut : (natText n).length + m - w = (Nat.digits 10 n).length + (m - w) := by
      rw [length_natText h]
      omega
    rw [hcut, pow_add]
    conv_lhs => rw [hm, pow_add, ← Nat.mul_assoc, ← hm]
    exact Nat.mul_div_mul_right _ _ (by positivity)

theorem leading_lt (w n : Nat) : leading w n < 10 ^ w := by
  rw [leading, Nat.div_lt_iff_lt_mul (by positivity), Nat.mul_comm]
  exact Nat.mul_lt_mul_of_pos_left (Nat.lt_base_pow_length_digits (by decide)) (by positivity)

theorem le_leading {n : Nat} (h : n ≠ 0) (w : Nat) : 10 ^ w ≤ leading (w + 1) n := by
  have hle : 10 ^ (Nat.digits 10 n).length ≤ 10 * n := Nat.base_pow_length_digits_le' 8 n h
  rw [leading, Nat.le_div_iff_mul_le (by positivity), pow_succ]
  calc 10 ^ w * 10 ^ (Nat.digits 10 n).length ≤ 10 ^ w * (10 * n) := Nat.mul_le_mul_left _ hle
    _ = n * (10 ^ w * 10) := by ring

/-! ### `atoi` -/

theorem isspace_of_isdigit {c : CChar} (h : isdigit c = true) : isspace c = false := by
  rw [isdigit_iff] at h
  rw [← Bool.not_eq_true, isspace_iff]
  omega

theorem dropWhile_isspace {s : List CChar} (h : AllDigits s) : s.dropWhile isspace = s := by
  cases s with
  | nil => rfl
  | cons c s =>
    have hc := isspace_of_isdigit (h c List.mem_cons_self)
    exact List.dropWhile_cons_of_neg (by simp [hc])

theorem sign_digits {s : List CChar} (h : AllDigits s) : sign s = (false, s) := by
  cases s with
  | nil => rfl
  | cons c s =>
    have hc := isdigit_iff.1 (h c List.mem_cons_self)
    rw [sign, if_neg (by omega), if_neg (by omega)]

theorem takeWhile_isdigit {s : List CChar} (h : AllDigits s) : s.takeWhile isdigit = s :=
  List.takeWhile_eq_self_iff.2 h

/-- A number that fits an `int`. -/
theorem bmod_clamp {z : Int} (hlow : -2 ^ 31 ≤ z) (hhigh : z < 2 ^ 31) :
    (max (-2 ^ 63) (min (2 ^ 63 - 1) z)).bmod (2 ^ 32) = z := by
  have hclamp : max (-2 ^ 63) (min (2 ^ 63 - 1) z) = z := by omega
  rw [hclamp]
  exact Int.bmod_eq_of_le (by omega) (by omega)

theorem atoi_digits {s : List CChar} (h : AllDigits s) (hlt : decimal s < 2 ^ 31) : atoi s = decimal s := by
  unfold atoi strtol
  rw [dropWhile_isspace h, sign_digits h]
  show (max _ (min _ (decimal (s.takeWhile isdigit) : Int))).bmod _ = _
  rw [takeWhile_isdigit h]
  exact bmod_clamp (by omega) (by omega)

theorem atoi_minus {s : List CChar} (h : AllDigits s) (hlt : decimal s < 2 ^ 31) :
    atoi (chr '-' :: s) = -(decimal s : Int) := by
  unfold atoi strtol
  rw [List.dropWhile_cons_of_neg (by decide)]
  show (max _ (min _ (-(decimal (s.takeWhile isdigit) : Int)))).bmod _ = _
  rw [takeWhile_isdigit h]
  exact bmod_clamp (by omega) (by omega)

end CString
