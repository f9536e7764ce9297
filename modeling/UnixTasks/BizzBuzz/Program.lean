import UnixTasks.BizzBuzz.Output

/-!
# bizzbuzz.c: the program

`main` opens the input, and the output without truncating it, and calls `transfer` for the length of the input.  The
two files are different ones.

* (`main`) the message, and what is in the output file afterwards;
* (`main_content`) for any two files;
* (`main_twice`) the program run on its own output;
* (`main_pieces`) an input in two pieces.
-/

namespace UnixTasks.BizzBuzz

open CChar Words

/-- What `main` prints. -/
inductive Message where
  | notEnough
  | notFound
  | notRegular
  | noOutput
  deriving DecidableEq, Repr

/-- What `argv[1]` names, when it can be opened. -/
inductive Input where
  | regular (content : List CChar)
  | other

/-- The content of a file after writing `out` at its start. -/
def overwrite (old out : List CChar) : List CChar := out ++ old.drop out.length

/-- `main`: `output` is the content of `argv[2]`, or `none` when it cannot be opened; the result has the content
afterwards.  Without a second argument there is no output file. -/
def main (fuel argc : Nat) (input : Option Input) (output : Option (List CChar)) :
    Option (List Message × Option (List CChar)) :=
  if argc < 3 then some ([.notEnough], none)
  else
    match input with
    | none => some ([.notFound], output)
    | some .other => some ([.notRegular], output)
    | some (.regular s) =>
      match output with
      | none => some ([.noOutput], none)
      | some old =>
        -- `st_size` becomes the `int` `len`
        (transfer fuel s ((s.length : Int).bmod (2 ^ 32))).map fun t => ([], some (overwrite old t.out))

variable {fuel argc : Nat}

/-! ### Texts -/

private theorem translateWord_cases (w : List CChar) :
    translateWord w = w ∨ translateWord w = Transfer.bizz ∨ translateWord w = Transfer.buzz ∨
      translateWord w = Transfer.bizz ++ Transfer.buzz := by
  rw [translateWord]
  split
  · rename_i h
    by_cases h3 : 3 ∣ value w
    · by_cases h5 : 5 ∣ value w
      · rw [if_pos h3, if_pos h5]
        exact .inr (.inr (.inr rfl))
      · rw [if_pos h3, if_neg h5, List.append_nil]
        exact .inr (.inl rfl)
    · rw [if_neg h3, if_pos (h.2.resolve_left h3), List.nil_append]
      exact .inr (.inr (.inl rfl))
  · exact .inl rfl

/-- A translated word is not a number, or is one that stays as it is. -/
theorem translateWord_translateWord (w : List CChar) : translateWord (translateWord w) = translateWord w := by
  rcases translateWord_cases w with h | h | h | h
  · rw [h]
    exact h
  · rw [h]
    decide
  · rw [h]
    decide
  · rw [h]
    decide

private theorem isspace_translateWord (w : List CChar) (hw : ∀ c ∈ w, isspace c = false) :
    ∀ c ∈ translateWord w, isspace c = false := by
  rcases translateWord_cases w with h | h | h | h
  · rwa [h]
  · rw [h]
    decide
  · rw [h]
    decide
  · rw [h]
    decide

private theorem translate_translate (s : List CChar) : translate (translate s) = translate s := by
  rw [translate, translate, mapWords_mapWords isspace_translateWord]
  exact congrArg (fun f => mapWords isspace f s) (funext translateWord_translateWord)

/-! ### The program -/

/-- The output of `transfer` for any text: the word that is open at the end is left out. -/
private theorem transfer_finished (s : List CChar) (hfuel : s.length < fuel) :
    ∃ t, transfer fuel s s.length = some t ∧ t.out = translate (finished isspace s) := by
  obtain ⟨t, done, w, hloop, hparts, hat⟩ := loop_at (parts_start s) at_start hfuel
  have hsplit := hparts.split
  rw [List.append_nil] at hsplit
  refine ⟨t, hloop, ?_⟩
  rw [hat.out, hsplit, finished_append hparts.done hparts.word]

private theorem main_regular (hargc : 3 ≤ argc) (s old : List CChar) (hlen : s.length < 2 ^ 31)
    (hfuel : s.length < fuel) :
    main fuel argc (some (.regular s)) (some old) =
      some ([], some (overwrite old (translate (finished isspace s)))) := by
  obtain ⟨t, ht, hout⟩ := transfer_finished s hfuel
  have hint : (s.length : Int).bmod (2 ^ 32) = s.length := Int.bmod_eq_of_le (by omega) (by omega)
  rw [main, if_neg (by omega)]
  simp only [hint, ht, hout, Option.map_some]

private theorem endsWithSep_translate {s : List CChar} (hs : EndsWithSep isspace s) :
    EndsWithSep isspace (translate s) :=
  endsWithSep_mapWords translateWord_nil hs

private theorem finished_of_ends {s : List CChar} (hs : EndsWithSep isspace s) : finished isspace s = s := by
  have h := finished_append hs (w := []) fun c hc => absurd hc List.not_mem_nil
  rwa [List.append_nil] at h

/-- For every text below 2^31 bytes and every old content of the output file: the program translates all words but the
one that the text ends in, and what was behind this in the output file stays there. -/
theorem main_content (hargc : 3 ≤ argc) (s old : List CChar) (hlen : s.length < 2 ^ 31) (hfuel : s.length < fuel) :
    ∃ d w, s = d ++ w ∧ EndsWithSep isspace d ∧ (∀ c ∈ w, isspace c = false) ∧
      main fuel argc (some (.regular s)) (some old) =
        some ([], some (translate d ++ old.drop (translate d).length)) := by
  obtain ⟨t, d, w, -, hparts, -⟩ := loop_at (parts_start s) at_start hfuel
  have hsplit := hparts.split
  rw [List.append_nil] at hsplit
  refine ⟨d, w, hsplit, hparts.done, hparts.word, ?_⟩
  rw [main_regular hargc s old hlen hfuel, overwrite]
  rw [hsplit, finished_append hparts.done hparts.word]

theorem main_content_old :
    ∃ d w, "9 4".toList.map chr = d ++ w ∧ EndsWithSep isspace d ∧ (∀ c ∈ w, isspace c = false) ∧
      main 4 3 (some (.regular ("9 4".toList.map chr))) (some ("previous".toList.map chr)) =
        some ([], some (translate d ++ ("previous".toList.map chr).drop (translate d).length)) :=
  main_content (by decide) ("9 4".toList.map chr) ("previous".toList.map chr) (by decide) (by decide)

/-- The output of the program, from any text, is not changed when the program is run on it: it does to every output
file what the text itself does.  Both are below 2^31 bytes, so that the length stays what it is as an `int`. -/
theorem main_twice (hargc : 3 ≤ argc) (s : List CChar) (hlen : s.length < 2 ^ 31) :
    ∃ b, (∀ fuel, s.length < fuel → main fuel argc (some (.regular s)) (some []) = some ([], some b)) ∧
      ∀ old fuel fuel', b.length < 2 ^ 31 → s.length < fuel → b.length < fuel' →
        main fuel' argc (some (.regular b)) (some old) = main fuel argc (some (.regular s)) (some old) := by
  refine ⟨translate (finished isspace s), fun fuel hfuel => ?_,
    fun old fuel fuel' hlen' hfuel hfuel' => ?_⟩
  · rw [main_regular hargc s [] hlen hfuel, overwrite, List.drop_nil, List.append_nil]
  · have hends : EndsWithSep isspace (translate (finished isspace s)) := endsWithSep_translate (endsWithSep_finished s)
    rw [main_regular hargc s old hlen hfuel, main_regular hargc _ old hlen' hfuel', finished_of_ends hends,
      translate_translate]

theorem main_twice_two :
    ∃ b, (∀ fuel, ("9 4 ".toList.map chr).length < fuel →
        main fuel 3 (some (.regular ("9 4 ".toList.map chr))) (some []) = some ([], some b)) ∧
      ∀ old fuel fuel', b.length < 2 ^ 31 → ("9 4 ".toList.map chr).length < fuel → b.length < fuel' →
        main fuel' 3 (some (.regular b)) (some old) =
          main fuel 3 (some (.regular ("9 4 ".toList.map chr))) (some old) :=
  main_twice (by decide) ("9 4 ".toList.map chr) (by decide)

/-- A text that is cut behind whitespace may be given to the program in two pieces. -/
theorem main_pieces (hargc : 3 ≤ argc) {s : List CChar} (hs : EndsWithSep isspace s) (r : List CChar)
    (hlen : (s ++ r).length < 2 ^ 31) (hfuel : (s ++ r).length < fuel) :
    ∃ b b', main fuel argc (some (.regular s)) (some []) = some ([], some b) ∧
      main fuel argc (some (.regular r)) (some []) = some ([], some b') ∧
      main fuel argc (some (.regular (s ++ r))) (some []) = some ([], some (b ++ b')) := by
  rw [List.length_append] at hlen hfuel
  have hfinished : finished isspace (s ++ r) = s ++ finished isspace r := by
    obtain ⟨-, d, w, -, hparts, -⟩ := loop_at (parts_start r) at_start (show r.length < fuel by omega)
    have hsplit := hparts.split
    rw [List.append_nil] at hsplit
    have hends : EndsWithSep isspace (s ++ d) := by
      intro c hc
      rcases List.eq_nil_or_concat d with rfl | ⟨t, x, rfl⟩
      · rw [List.append_nil] at hc
        exact hs c hc
      · refine hparts.done c ?_
        rw [List.concat_eq_append] at hc ⊢
        rw [← List.append_assoc, List.getLast?_concat] at hc
        rwa [List.getLast?_concat]
    rw [hsplit, finished_append hparts.done hparts.word, ← List.append_assoc, finished_append hends hparts.word]
  refine ⟨_, _, main_regular hargc s [] (by omega) (by omega),
    main_regular hargc r [] (by omega) (by omega), ?_⟩
  rw [main_regular hargc (s ++ r) [] (by rw [List.length_append]; exact hlen)
    (by rw [List.length_append]; exact hfuel), hfinished, finished_of_ends hs]
  simp only [overwrite, List.drop_nil, List.append_nil]
  rw [translate, mapWords_append translateWord_nil hs]
  rfl

theorem main_pieces_two :
    ∃ b b', main 5 3 (some (.regular ("9 ".toList.map chr))) (some []) = some ([], some b) ∧
      main 5 3 (some (.regular ("4\n".toList.map chr))) (some []) = some ([], some b') ∧
      main 5 3 (some (.regular ("9 ".toList.map chr ++ "4\n".toList.map chr))) (some []) = some ([], some (b ++ b')) :=
  main_pieces (by decide) (by decide) ("4\n".toList.map chr) (by decide) (by decide)

end UnixTasks.BizzBuzz
