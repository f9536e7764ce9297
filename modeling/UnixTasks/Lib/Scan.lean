import UnixTasks.Lib.Decimal
import UnixTasks.Lib.Tokens

/-!
# Reading words and numbers from a stream

`%s` and `%d` of `fscanf`.  Both skip the white space in front and stop at the first character that does not belong to
the word or the number; this one stays in the stream.

* (`scanWord_of_parts`) a word is the next part of the stream between white space;
* (`scanInt_of_parts`) a number that has been written with `%d` is read back.
-/

namespace CString

open CChar Tokens

/-- `fscanf(fd, "%s", ..)`: the word, and what is left; `none` at the end of the stream. -/
def scanWord (s : List CChar) : Option (List CChar × List CChar) :=
  match s.dropWhile isspace with
  | [] => none
  | c :: s => some ((c :: s).takeWhile (!isspace ·), (c :: s).dropWhile (!isspace ·))

/-- `fscanf(fd, "%d", ..)`: the number, if there is one, and what is left. -/
def scanInt (s : List CChar) : Option Int × List CChar :=
  let (_, digits) := sign (s.dropWhile isspace)
  (if digits.takeWhile isdigit = [] then none else some (atoi s), digits.dropWhile isdigit)

/-- What has been read, and what is left of the stream. -/
theorem scanWord_some {s w rest : List CChar} (h : scanWord s = some (w, rest)) :
    s.dropWhile isspace = w ++ rest ∧ (∀ c ∈ w, isspace c = false) ∧ ∀ c ∈ rest.head?, isspace c = true := by
  rw [scanWord] at h
  cases hs : s.dropWhile isspace with
  | nil =>
    rw [hs] at h
    cases h
  | cons c s' =>
    rw [hs] at h
    obtain ⟨rfl, rfl⟩ := Prod.mk.inj (Option.some.inj h)
    refine ⟨(List.takeWhile_append_dropWhile ..).symm, fun c hc => by simpa using List.mem_takeWhile_imp hc, ?_⟩
    intro d hd
    have hhead := List.head?_dropWhile_not (!isspace ·) (c :: s')
    rw [hd] at hhead
    simpa using hhead

theorem scanWord_of_parts {s w : List CChar} {ws : List (List CChar)} (h : parts isspace s = w :: ws) :
    ∃ rest, scanWord s = some (w, rest) ∧ parts isspace rest = ws := by
  cases htok : strtok_r isspace s with
  | none =>
    rw [strtok_r_none htok] at h
    cases h
  | some p =>
    obtain ⟨token, rest⟩ := p
    obtain ⟨hparts, -⟩ := strtok_r_some htok
    rw [h, List.cons.injEq] at hparts
    obtain ⟨rfl, hrest⟩ := hparts
    rw [strtok_r] at htok
    cases hs : s.dropWhile isspace with
    | nil =>
      rw [hs] at htok
      cases htok
    | cons c s' =>
      rw [hs] at htok
      obtain ⟨rfl, rfl⟩ := Prod.mk.inj (Option.some.inj htok)
      have hscan : scanWord s =
          some ((c :: s').takeWhile (!isspace ·), (c :: s').dropWhile (!isspace ·)) := by rw [scanWord, hs]
      refine ⟨_, hscan, ?_⟩
      obtain ⟨-, -, hhead⟩ := scanWord_some hscan
      rw [hrest]
      -- the separator that is left in front makes no part
      cases hdrop : (c :: s').dropWhile (!isspace ·) with
      | nil => rfl
      | cons d t => exact parts_cons_delim (hhead d (by rw [hdrop]; rfl)) t

theorem takeWhile_digits {ds rest : List CChar} (hds : AllDigits ds) (hrest : ∀ c ∈ rest.head?, isspace c = true) :
    (ds ++ rest).takeWhile isdigit = ds ∧ (ds ++ rest).dropWhile isdigit = rest := by
  have hstop : rest.takeWhile isdigit = [] ∧ rest.dropWhile isdigit = rest := by
    cases rest with
    | nil => exact ⟨rfl, rfl⟩
    | cons c rest =>
      have hc : isdigit c = false := by
        rw [← Bool.not_eq_true]
        intro hd
        have hspace := hrest c rfl
        rw [isspace_of_isdigit hd] at hspace
        cases hspace
      exact ⟨List.takeWhile_cons_of_neg (by simp [hc]), List.dropWhile_cons_of_neg (by simp [hc])⟩
  rw [List.takeWhile_append_of_pos hds, List.dropWhile_append_of_pos hds, hstop.1, hstop.2]
  exact ⟨List.append_nil ds, rfl⟩

theorem natText_ne_nil (n : Nat) : natText n ≠ [] := by
  rw [natText]
  split
  · exact List.cons_ne_nil _ _
  · rename_i h
    rwa [Ne, List.map_eq_nil_iff, List.reverse_eq_nil_iff, Nat.digits_eq_nil_iff_eq_zero]

/-- The sign and the digits of a number. -/
theorem sign_intText (z : Int) (rest : List CChar) :
    sign (intText z ++ rest) = (decide (z < 0), natText z.natAbs ++ rest) := by
  rw [intText]
  split
  · rename_i hz
    simp only [hz, decide_true]
    rfl
  · rename_i hz
    simp only [hz, decide_false]
    obtain ⟨c, ds, hds⟩ := List.exists_cons_of_ne_nil (natText_ne_nil z.natAbs)
    have hc := isdigit_iff.1 (allDigits_natText z.natAbs c (by rw [hds]; exact List.mem_cons_self))
    rw [hds, List.cons_append, sign, if_neg (by omega), if_neg (by omega)]

theorem scanInt_of_parts {s : List CChar} {z : Int} {ws : List (List CChar)} (h : parts isspace s = intText z :: ws)
    (hlow : -2 ^ 31 ≤ z) (hhigh : z < 2 ^ 31) : ∃ rest, scanInt s = (some z, rest) ∧ parts isspace rest = ws := by
  obtain ⟨rest, hscan, hrest⟩ := scanWord_of_parts h
  obtain ⟨hdrop, -, hhead⟩ := scanWord_some hscan
  obtain ⟨htake, hleft⟩ := takeWhile_digits (allDigits_natText z.natAbs) hhead
  have hatoi : atoi s = z := by
    unfold atoi strtol
    rw [hdrop, sign_intText]
    simp only [htake, decimal_natText]
    have habs : (if decide (z < 0) = true then -(z.natAbs : Int) else z.natAbs) = z := by
      split
      · rename_i hz
        have hz' := of_decide_eq_true hz
        omega
      · rename_i hz
        have hz' := of_decide_eq_false (Bool.not_eq_true _ ▸ hz)
        omega
    rw [habs]
    exact bmod_clamp hlow hhigh
  refine ⟨rest, ?_, hrest⟩
  rw [scanInt, hdrop, sign_intText]
  simp only [htake, hleft, natText_ne_nil, if_false, hatoi]

end CString
