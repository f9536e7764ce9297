import Mathlib.Data.List.TakeWhile
import UnixTasks.Lib.CChar

/-!
# Strings of C

An array of `char` is a list; the string it holds is the part before the first NUL.  The functions below are those of
string.h, stdlib.h and stdio.h on arrays.  `strcpy` copies without a bound: it is `none` where the C function reads past
its source or writes past its destination.
-/

namespace CString

open CChar

/-- The string that an array holds. -/
def cstr (s : List CChar) : List CChar := s.takeWhile fun c => c ≠ 0

/-- An array of NULs. -/
def zeros (n : Nat) : List CChar := List.replicate n 0

/-- A string in an array of `n` characters, the rest of it filled with NULs. -/
def padded (n : Nat) (s : List CChar) : List CChar := s ++ zeros (n - s.length)

/-- `strcmp(a, b)`: the difference of the first two characters that differ, as unsigned ones. -/
def strcmp : List CChar → List CChar → Int
  | [], b => 0 - (b.headD 0).toNat
  | x :: a, b =>
    if x ≠ b.headD 0 then x.toNat - (b.headD 0).toNat
    else if x = 0 then 0
    else strcmp a b.tail

/-- `strncmp(a, b, n)`. -/
def strncmp : Nat → List CChar → List CChar → Int
  | 0, _, _ => 0
  | n + 1, a, b =>
    if a.headD 0 ≠ b.headD 0 then (a.headD 0).toNat - (b.headD 0).toNat
    else if a.headD 0 = 0 then 0
    else strncmp n a.tail b.tail

/-- `strncpy(dst, src, n)`: at most `n` characters, filled up to `n` with NULs. -/
def strncpy (dst src : List CChar) (n : Nat) : List CChar :=
  padded n ((cstr src).take n) ++ dst.drop n

/-- `strcpy(dst, src)`. -/
def strcpy (dst src : List CChar) : Option (List CChar) :=
  if 0 ∈ src ∧ (cstr src).length < dst.length then some (cstr src ++ 0 :: dst.drop ((cstr src).length + 1)) else none

/-- `snprintf(dst, n, "%s%s", a, b)`: the text is cut to `n - 1` characters. -/
def snprintf2 (dst : List CChar) (n : Nat) (a b : List CChar) : List CChar :=
  let s := (cstr a ++ cstr b).take (n - 1)
  s ++ 0 :: dst.drop (s.length + 1)

/-- The sign and the digits of a number. -/
def sign : List CChar → Bool × List CChar
  | [] => (false, [])
  | c :: s => if c.toInt = 45 then (true, s) else if c.toInt = 43 then (false, s) else (false, c :: s)

/-- `strtol(s, NULL, 10)`: a `long`, at the end of its range where the number is beyond it. -/
def strtol (s : List CChar) : Int :=
  let (neg, s) := sign (s.dropWhile isspace)
  let n : Int := decimal (s.takeWhile isdigit)
  max (-2 ^ 63) (min (2 ^ 63 - 1) (if neg then -n else n))

/-- `atoi(s)`: the `long` as an `int`. -/
def atoi (s : List CChar) : Int := (strtol s).bmod (2 ^ 32)

/-! ### Strings in arrays -/

private theorem isChar_of_notMem {s : List CChar} (hs : 0 ∉ s) : ∀ c ∈ s, decide (c ≠ 0) = true :=
  fun _ hc => decide_eq_true (ne_of_mem_of_not_mem hc hs)

theorem cstr_append {s : List CChar} (hs : 0 ∉ s) (t : List CChar) : cstr (s ++ t) = s ++ cstr t := by
  unfold cstr
  rw [List.takeWhile_append_of_pos (isChar_of_notMem hs)]

@[simp] theorem cstr_nul (t : List CChar) : cstr (0 :: t) = [] := rfl

theorem cstr_cons {c : CChar} (hc : c ≠ 0) (s : List CChar) : cstr (c :: s) = c :: cstr s :=
  List.takeWhile_cons_of_pos (decide_eq_true hc)

theorem cstr_append_nul {s : List CChar} (hs : 0 ∉ s) (t : List CChar) : cstr (s ++ 0 :: t) = s := by
  rw [cstr_append hs, cstr_nul, List.append_nil]

theorem cstr_of_notMem {s : List CChar} (hs : 0 ∉ s) : cstr s = s :=
  List.takeWhile_eq_self_iff.2 (isChar_of_notMem hs)

theorem nul_notMem_cstr (s : List CChar) : 0 ∉ cstr s := by
  intro h
  have hne := List.mem_takeWhile_imp (p := fun c : CChar => decide (c ≠ 0)) h
  exact of_decide_eq_true hne rfl

/-- An array is a string without NUL, or its string and a NUL are a part of it. -/
theorem cstr_cases (s : List CChar) : (0 ∉ s ∧ cstr s = s) ∨ ∃ t, s = cstr s ++ 0 :: t := by
  by_cases hs : 0 ∈ s
  · right
    obtain ⟨a, t, rfl, ha⟩ := List.eq_append_cons_of_mem hs
    exact ⟨t, by rw [cstr_append_nul ha]⟩
  · exact .inl ⟨hs, cstr_of_notMem hs⟩

/-- The first NUL ends the string, wherever it is. -/
theorem cstr_append_nul' (s t : List CChar) : cstr (s ++ 0 :: t) = cstr s := by
  rcases cstr_cases s with ⟨hs, heq⟩ | ⟨r, hr⟩
  · rw [cstr_append_nul hs, heq]
  · conv_lhs => rw [hr, List.append_assoc, List.cons_append]
    rw [cstr_append_nul (nul_notMem_cstr s)]

/-- The first character of a string is the first one of its array. -/
theorem head?_of_head?_cstr {s : List CChar} {c : CChar} (h : (cstr s).head? = some c) : s.head? = some c := by
  rw [cstr, List.head?_takeWhile, Option.filter_eq_some_iff] at h
  exact h.1

theorem length_cstr_le (s : List CChar) : (cstr s).length ≤ s.length := (List.takeWhile_prefix _).length_le

/-- The string in the first part of an array. -/
theorem take_cstr_append (s t : List CChar) : (cstr (s ++ t)).take s.length = cstr s := by
  rcases cstr_cases s with ⟨hs, heq⟩ | ⟨r, hr⟩
  · rw [cstr_append hs, List.take_left, heq]
  · have hcut : cstr (s ++ t) = cstr s := by
      conv_lhs => rw [hr, List.append_assoc, List.cons_append]
      rw [cstr_append_nul (nul_notMem_cstr s)]
    rw [hcut, List.take_of_length_le (length_cstr_le s)]

theorem cstr_zeros (n : Nat) : cstr (zeros n) = [] := by
  cases n <;> rfl

theorem cstr_padded {s : List CChar} (hs : 0 ∉ s) (n : Nat) : cstr (padded n s) = s := by
  rw [padded, cstr_append hs, cstr_zeros, List.append_nil]

theorem length_padded {s : List CChar} {n : Nat} (h : s.length ≤ n) : (padded n s).length = n := by
  simp [padded, zeros]
  omega

/-! ### Comparing and copying -/

/-- A string by its first character. -/
theorem cstr_eq_headD (s : List CChar) : cstr s = if s.headD 0 = 0 then [] else s.headD 0 :: cstr s.tail := by
  cases s with
  | nil => rfl
  | cons c s =>
    rw [List.headD_cons, List.tail_cons]
    by_cases hc : c = 0
    · rw [if_pos hc, hc, cstr_nul]
    · rw [if_neg hc, cstr_cons hc]

private theorem toNat_sub_ne_zero {x y : CChar} (h : x ≠ y) : (x.toNat : Int) - y.toNat ≠ 0 := by
  intro hxy
  exact h (BitVec.eq_of_toNat_eq (by omega))

/-- Strings with different first characters differ at once. -/
private theorem head?_ne {x y : CChar} (h : x ≠ y) (s t : List CChar) :
    (if x = 0 then [] else x :: s).head? ≠ (if y = 0 then [] else y :: t).head? := by
  by_cases hx : x = 0
  · have hy : y ≠ 0 := fun hy => h (hx.trans hy.symm)
    rw [if_pos hx, if_neg hy]
    simp
  · by_cases hy : y = 0
    · rw [if_neg hx, if_pos hy]
      simp
    · rw [if_neg hx, if_neg hy]
      simp [h]

theorem strncmp_eq_zero_iff {n : Nat} {a b : List CChar} : strncmp n a b = 0 ↔ (cstr a).take n = (cstr b).take n := by
  induction n generalizing a b with
  | zero => simp [strncmp]
  | succ n ih =>
    rw [strncmp, cstr_eq_headD a, cstr_eq_headD b]
    by_cases hxy : a.headD 0 = b.headD 0
    · rw [if_neg (not_not.2 hxy), hxy]
      by_cases hx : b.headD 0 = 0
      · rw [if_pos hx, if_pos hx, if_pos hx]
        exact iff_of_true rfl rfl
      · rw [if_neg hx, if_neg hx, if_neg hx, List.take_succ_cons, List.take_succ_cons, List.cons.injEq, ih]
        exact (and_iff_right rfl).symm
    · rw [if_pos hxy]
      refine iff_of_false (toNat_sub_ne_zero hxy) fun h => head?_ne hxy (cstr a.tail) (cstr b.tail) ?_
      have hhead := congrArg List.head? h
      simpa only [List.head?_take, Nat.add_one_ne_zero, if_false] using hhead

theorem strcmp_eq_zero_iff {a b : List CChar} : strcmp a b = 0 ↔ cstr a = cstr b := by
  induction a generalizing b with
  | nil =>
    rw [strcmp, cstr_eq_headD b]
    by_cases hy : b.headD 0 = 0
    · rw [if_pos hy, hy]
      exact iff_of_true rfl rfl
    · rw [if_neg hy]
      refine iff_of_false ?_ (by simp [cstr])
      exact toNat_sub_ne_zero fun h => hy h.symm
  | cons x a ih =>
    rw [strcmp, cstr_eq_headD b, cstr_eq_headD (x :: a), List.headD_cons, List.tail_cons]
    by_cases hxy : x = b.headD 0
    · rw [if_neg (not_not.2 hxy), ← hxy]
      by_cases hx : x = 0
      · rw [if_pos hx, if_pos hx, if_pos hx]
        exact iff_of_true rfl rfl
      · rw [if_neg hx, if_neg hx, if_neg hx, List.cons.injEq, ih]
        exact (and_iff_right rfl).symm
    · rw [if_pos hxy]
      exact iff_of_false (toNat_sub_ne_zero hxy) fun h => head?_ne hxy _ _ (congrArg List.head? h)

theorem strcpy_zeros {src : List CChar} {n : Nat} (hsrc : 0 ∈ src) (hlen : (cstr src).length < n) :
    strcpy (zeros n) src = some (padded n (cstr src)) := by
  obtain ⟨k, hk⟩ : ∃ k, n - (cstr src).length = k + 1 := ⟨n - (cstr src).length - 1, by omega⟩
  have hrest : n - ((cstr src).length + 1) = k := by omega
  rw [strcpy, if_pos ⟨hsrc, by simpa [zeros] using hlen⟩, padded, zeros, zeros, hk, List.replicate_succ,
    List.drop_replicate, hrest]

theorem length_snprintf2 {dst : List CChar} {n : Nat} (hn : 0 < n) (hdst : n ≤ dst.length) (a b : List CChar) :
    (snprintf2 dst n a b).length = dst.length := by
  have hlen : ((cstr a ++ cstr b).take (n - 1)).length ≤ n - 1 := List.length_take_le ..
  unfold snprintf2
  rw [List.length_append, List.length_cons, List.length_drop]
  omega

theorem strncpy_zeros (src : List CChar) {n m : Nat} (hm : m ≤ n) :
    strncpy (zeros n) src m = padded n ((cstr src).take m) := by
  have hlen : ((cstr src).take m).length ≤ m := List.length_take_le ..
  rw [strncpy, padded, padded, zeros, zeros, zeros, List.drop_replicate, List.append_assoc,
    List.replicate_append_replicate]
  congr 2
  omega

/-! ### Numbers -/

theorem ne_nul_of_isspace {c : CChar} (h : isspace c = true) : c ≠ 0 := by
  rintro rfl
  exact absurd h (by decide)

theorem ne_nul_of_isdigit {c : CChar} (h : isdigit c = true) : c ≠ 0 := by
  rintro rfl
  exact absurd h (by decide)

private theorem dropWhile_isspace_cstr (s : List CChar) :
    (cstr s).dropWhile isspace = cstr (s.dropWhile isspace) := by
  induction s with
  | nil => rfl
  | cons c s ih =>
    by_cases hc : isspace c = true
    · rw [cstr_cons (ne_nul_of_isspace hc), List.dropWhile_cons_of_pos hc, List.dropWhile_cons_of_pos hc, ih]
    · rw [List.dropWhile_cons_of_neg hc]
      by_cases h0 : c = 0
      · rw [h0]
        rfl
      · rw [cstr_cons h0, List.dropWhile_cons_of_neg hc]

private theorem sign_cstr (s : List CChar) : sign (cstr s) = ((sign s).1, cstr (sign s).2) := by
  cases s with
  | nil => rfl
  | cons c s =>
    by_cases h0 : c = 0
    · rw [h0]
      rfl
    · rw [cstr_cons h0, sign, sign]
      by_cases hm : c.toInt = 45
      · rw [if_pos hm, if_pos hm]
      · rw [if_neg hm, if_neg hm]
        by_cases hp : c.toInt = 43
        · rw [if_pos hp, if_pos hp]
        · rw [if_neg hp, if_neg hp, cstr_cons h0]

private theorem takeWhile_isdigit_cstr (s : List CChar) : (cstr s).takeWhile isdigit = s.takeWhile isdigit := by
  rw [cstr, List.takeWhile_takeWhile]
  congr 1
  funext c
  by_cases hc : isdigit c = true
  · simp only [hc, ne_eq, ne_nul_of_isdigit hc, not_false_eq_true, decide_true, and_self]
  · simp [hc]

/-- A number is read from the string that an array holds. -/
theorem strtol_cstr (s : List CChar) : strtol (cstr s) = strtol s := by
  unfold strtol
  rw [dropWhile_isspace_cstr, sign_cstr]
  simp only [takeWhile_isdigit_cstr]

theorem atoi_cstr (s : List CChar) : atoi (cstr s) = atoi s := by
  rw [atoi, atoi, strtol_cstr]

theorem atoi_padded {s : List CChar} (hs : 0 ∉ s) (n : Nat) : atoi (padded n s) = atoi s := by
  rw [← atoi_cstr (padded n s), cstr_padded hs]

/-- A string that begins with something else than a number reads as 0. -/
theorem atoi_cons_eq_zero {c : CChar} (s : List CChar) (hspace : isspace c = false) (hdigit : isdigit c = false)
    (hminus : c.toInt ≠ 45) (hplus : c.toInt ≠ 43) : atoi (c :: s) = 0 := by
  have hdrop : (c :: s).dropWhile isspace = c :: s := List.dropWhile_cons_of_neg (by simp [hspace])
  have htake : (c :: s).takeWhile isdigit = [] := List.takeWhile_cons_of_neg (by simp [hdigit])
  simp [atoi, strtol, hdrop, sign, hminus, hplus, htake]

end CString
