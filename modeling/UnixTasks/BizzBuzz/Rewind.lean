import UnixTasks.BizzBuzz.Output
import UnixTasks.Lib.Run

/-!
# The way back in transfer

The copy of a word sets the index of the outer loop and the offset of the file back.  Nothing is gained by it that could
go on forever: the copy ends where it was begun.

* (`round`) one round of the loop;
* (`Copies`) the word that ends in a round is copied;
* (`AtHead`, `reachable_at`) the locals at every test of the condition of the loop;
* (`transfer_rewinds`) the loop ends, and each byte of the file is read at most twice.
-/

namespace UnixTasks.BizzBuzz

open ActionSystem CChar Words

namespace Transfer

/-- The condition of the third `if`. -/
def endsWord (t : Transfer) : Bool := isspace t.cur && t.i != t.lastSp && t.i != 0 && !isspace t.buf

/-- The locals when the third `if` is reached. -/
def atEndWord (file : List CChar) (t : Transfer) : Transfer := ((t.read file).testFlag).addDigit

/-- The locals at the branch that copies a word, where the third `if` is entered. -/
def atCopyWord (file : List CChar) (t : Transfer) : Transfer := (t.atEndWord file).writeBizz.writeBuzz

/-- The copy loop runs in the body of the loop. -/
def Copies (file : List CChar) (t : Transfer) : Prop :=
  (t.atEndWord file).endsWord = true ∧ ((t.atCopyWord file).flag = true ∨ (t.atCopyWord file).summa ≠ 0)

instance (file : List CChar) (t : Transfer) : Decidable (t.Copies file) := inferInstanceAs (Decidable (_ ∧ _))

/-- From one test of the condition of the loop to the next. -/
def round (file : List CChar) (len : Int) (t : Transfer) (_ : Unit) : Option Transfer :=
  if t.i < len then some { t.body file len with i := (t.body file len).i + 1 } else none

private theorem testFlag_cur (t : Transfer) : t.testFlag.cur = t.cur := by
  unfold testFlag
  split <;> rfl

private theorem addDigit_cur (t : Transfer) : t.addDigit.cur = t.cur := by
  unfold addDigit
  split <;> rfl

/-- The byte that has been read is still there when the third `if` is reached. -/
private theorem atEndWord_cur (file : List CChar) (t : Transfer) : (t.atEndWord file).cur = (t.read file).cur := by
  rw [atEndWord, addDigit_cur, testFlag_cur]

end Transfer

section Round

variable {s done w post : List CChar} {c : CChar} {t : Transfer}

/-- Before the end of the text there is a byte to read. -/
private theorem exists_cons_of_lt (h : Parts s done w post) (ht : At done w t) (hlt : t.i < s.length) :
    ∃ c rest, post = c :: rest := by
  cases post with
  | nil =>
    rw [ht.i, h.split] at hlt
    simp at hlt
  | cons c rest => exact ⟨c, rest, rfl⟩

/-- One round keeps the locals at the head of the loop. -/
private theorem round_at (h : Parts s done w (c :: post)) (ht : At done w t) (hlt : t.i < s.length) :
    ∃ done' w', Parts s done' w' post ∧ At done' w' { t.body s s.length with i := (t.body s s.length).i + 1 } := by
  by_cases hc : isspace c = true
  · exact ⟨_, _, h.space hc, body_space h hc ht hlt⟩
  · rw [Bool.not_eq_true] at hc
    exact ⟨_, _, h.letter hc, body_letter h hc ht⟩

/-- The third `if` is entered at a whitespace byte that has a word before it. -/
private theorem of_endsWord (h : Parts s done w (c :: post)) (ht : At done w t)
    (hend : (t.atEndWord s).endsWord = true) :
    isspace c = true ∧ w ≠ [] := by
  have hcur : (t.atEndWord s).cur = c := by
    rw [Transfer.atEndWord_cur, read_eq h ht.offset]
  have hc : isspace c = true := by
    unfold Transfer.endsWord at hend
    rw [← hcur]
    simp only [Bool.and_eq_true] at hend
    exact hend.1.1.1
  refine ⟨hc, ?_⟩
  rintro rfl
  -- after whitespace, and at the start of the file, the test fails
  obtain ⟨-, hskip⟩ := buf_of_nil h.done ht
  unfold Transfer.atEndWord at hend
  rw [read_space_eq h hc ht] at hend
  unfold Transfer.endsWord at hend
  rcases hskip with h0 | hb
  · simp [h0] at hend
  · simp [hb] at hend

/-- Where the third `if` is entered, the branch that copies leaves the byte, the index and the offset. -/
private theorem copyWord_back (h : Parts s done w (c :: post)) (ht : At done w t) (hlt : t.i < s.length)
    (hend : (t.atEndWord s).endsWord = true) :
    let u := (t.atCopyWord s).copyWord s s.length
    isspace u.cur = true ∧ u.cur = (t.read s).cur ∧ u.i = t.i ∧ u.offset = (t.read s).offset := by
  obtain ⟨hc, hw⟩ := of_endsWord h ht hend
  have hu : AtEnd done w c (t.atEndWord s) := ht.atEnd h hc hw
  have hi : (t.atEndWord s).i = t.i := by rw [hu.i, ht.i]
  have hcur : (t.read s).cur = c := by rw [read_eq h ht.offset]
  have hoff : (t.read s).offset = t.offset + 1 := by rw [read_eq h ht.offset]
  obtain ⟨n, -, hwrite⟩ := writeWord_eq h hc hu (by rw [hi]; exact hlt)
  have hwrite' : (t.atCopyWord s).copyWord s s.length = _ := hwrite
  rw [hwrite', hcur, hoff, ht.offset]
  refine ⟨?_, hu.cur, hi, hu.offset⟩
  rw [hu.cur, hc]

end Round

/-- The loop goes on by rounds until its condition fails. -/
private theorem loop_reachable {s : List CChar} {len : Int} {fuel : Nat} {t u : Transfer}
    (h : Transfer.loop s len fuel t = some u) : Reachable (Transfer.round s len) t u := by
  induction fuel generalizing t with
  | zero => cases h
  | succ fuel ih =>
    rw [Transfer.loop] at h
    split at h
    · rename_i hlt
      obtain ⟨as, hrun⟩ := ih h
      refine ⟨() :: as, ?_⟩
      rw [run_cons, Transfer.round, if_pos hlt]
      exact hrun
    · refine ⟨[], ?_⟩
      rw [run_nil, h]

/-- The text is read up to some place, and the locals are what this place makes them. -/
def AtHead (s : List CChar) (t : Transfer) : Prop := ∃ done w post, Parts s done w post ∧ At done w t

theorem AtHead.round {s : List CChar} (t : Transfer) (a : Unit) (u : Transfer) (h : AtHead s t)
    (hround : Transfer.round s s.length t a = some u) : AtHead s u := by
  obtain ⟨done, w, post, hparts, hat⟩ := h
  unfold Transfer.round at hround
  split at hround
  · rename_i hlt
    obtain ⟨c, rest, rfl⟩ := exists_cons_of_lt hparts hat hlt
    obtain ⟨done', w', hparts', hat'⟩ := round_at hparts hat hlt
    rw [← Option.some.inj hround]
    exact ⟨done', w', rest, hparts', hat'⟩
  · cases hround

/-- The locals at every test of the condition of the loop. -/
theorem reachable_at {s : List CChar} {t : Transfer} (h : Reachable (Transfer.round s s.length) .start t) :
    AtHead s t :=
  Reachable.invariant AtHead.round ⟨[], [], s, parts_start s, at_start⟩ h

/-- At the end of a round the index is one behind the offset. -/
private theorem body_offset {s : List CChar} {t : Transfer} (h : Reachable (Transfer.round s s.length) .start t)
    (hlt : t.i < s.length) : ((t.body s s.length).offset : Int) = (t.body s s.length).i + 1 := by
  obtain ⟨done, w, post, hparts, hat⟩ := reachable_at h
  obtain ⟨c, rest, rfl⟩ := exists_cons_of_lt hparts hat hlt
  obtain ⟨done', w', -, hat'⟩ := round_at hparts hat hlt
  have hoff := hat'.offset
  have hi := hat'.i
  simp only at hoff hi
  rw [hoff, hi]
  simp

/-- The loop ends after at most one round for each byte, and each byte is read at most twice. -/
private theorem transfer_ends (s : List CChar) {fuel : Nat} (hfuel : s.length < fuel) :
    ∃ t, transfer fuel s s.length = some t ∧ Reachable (Transfer.round s s.length) .start t ∧
      t.bytesRead ≤ 2 * s.length := by
  obtain ⟨t, done, w, hloop, hparts, hat⟩ := loop_at (parts_start s) at_start hfuel
  refine ⟨t, hloop, loop_reachable hloop, ?_⟩
  have hreads := hat.bytesRead
  rw [hparts.split, List.append_nil, List.length_append]
  omega

/-- The loop ends, at the end of every round the offset of the file is one more than the index, a copy ends at the
whitespace that it was begun at, and no more than twice the length of the file is read. -/
theorem transfer_rewinds (s : List CChar) :
    (∀ fuel, s.length < fuel →
      ∃ t, transfer fuel s s.length = some t ∧ Reachable (Transfer.round s s.length) .start t ∧
        t.bytesRead ≤ 2 * s.length) ∧
    ∀ t, Reachable (Transfer.round s s.length) .start t → t.i < s.length →
      ((t.body s s.length).offset : Int) = (t.body s s.length).i + 1 ∧
      (t.Copies s →
        let u := (t.atCopyWord s).copyWord s s.length
        isspace u.cur = true ∧ u.cur = (t.read s).cur ∧ u.i = t.i ∧ u.offset = (t.read s).offset) := by
  refine ⟨fun fuel hfuel => transfer_ends s hfuel, ?_⟩
  intro t ht hlt
  refine ⟨body_offset ht hlt, ?_⟩
  rintro ⟨hend, -⟩
  obtain ⟨done, w, post, hparts, hat⟩ := reachable_at ht
  obtain ⟨c, rest, rfl⟩ := exists_cons_of_lt hparts hat hlt
  exact copyWord_back hparts hat hlt hend

/-- In the text `7` and a space the word is copied in the second round. -/
example : (run (Transfer.round ("7 ".toList.map chr) 2) .start [()]).map
    (fun t => decide (t.Copies ("7 ".toList.map chr))) = some true := by decide

end UnixTasks.BizzBuzz
