import UnixTasks.BizzBuzz.Transfer
import UnixTasks.Lib.Words

/-!
# What transfer writes

The loop reads a file as finished words, the part of the word that is open, and what is still to come.  All locals of
`transfer` are functions of these three.

* (`translate`) the translation of a text;
* (`At`) the locals at the head of the loop;
* (`body_letter`, `body_space`) one round;
* (`transfer_eq`) the output for a text in which no word is left open;
* (`transfer_ne_of_open`) a word at the end of the text is lost.
-/

namespace UnixTasks.BizzBuzz

open CChar Words

/-! ### The translation of a text -/

/-- A word without the minus sign in front. -/
def unsigned : List CChar → List CChar
  | [] => []
  | c :: cs => if c.toInt = Transfer.minus then cs else c :: cs

/-- The word has the form `-?[0-9]+`. -/
def IsNumber (w : List CChar) : Prop := unsigned w ≠ [] ∧ ∀ c ∈ unsigned w, isdigit c = true

instance (w : List CChar) : Decidable (IsNumber w) := inferInstanceAs (Decidable (_ ∧ _))

/-- The number that a word of this form stands for. -/
def value (w : List CChar) : Int := if unsigned w = w then decimal w else -decimal (unsigned w)

/-- What becomes of a word. -/
def translateWord (w : List CChar) : List CChar :=
  if IsNumber w ∧ (3 ∣ value w ∨ 5 ∣ value w) then
    (if 3 ∣ value w then Transfer.bizz else []) ++ (if 5 ∣ value w then Transfer.buzz else [])
  else w

/-- What becomes of a text: whitespace stays in place and every word is translated. -/
def translate (s : List CChar) : List CChar := mapWords isspace translateWord s

theorem translateWord_nil : translateWord [] = [] := by decide

/-! ### Parts of numbers -/

/-- The word can be continued to a number. -/
def NumberPart (w : List CChar) : Prop := ∀ c ∈ unsigned w, isdigit c = true

private theorem unsigned_append_singleton {w : List CChar} (hw : w ≠ []) (c : CChar) :
    unsigned (w ++ [c]) = unsigned w ++ [c] := by
  cases w with
  | nil => exact absurd rfl hw
  | cons d w =>
    rw [List.cons_append, unsigned, unsigned]
    split <;> rfl

private theorem numberPart_append_singleton {w : List CChar} {c : CChar} :
    NumberPart (w ++ [c]) ↔ NumberPart w ∧ (isdigit c = true ∨ (c.toInt = Transfer.minus ∧ w = [])) := by
  unfold NumberPart
  by_cases hw : w = []
  · subst hw
    by_cases hc : c.toInt = Transfer.minus <;> simp [unsigned, hc]
  · simp [unsigned_append_singleton hw, hw, or_imp, forall_and]

/-- The word is a number if and only if it can be continued to one and does not end in a minus sign. -/
private theorem isNumber_append_singleton {w : List CChar} {c : CChar} :
    IsNumber (w ++ [c]) ↔ NumberPart (w ++ [c]) ∧ c.toInt ≠ Transfer.minus := by
  unfold IsNumber NumberPart
  rw [and_comm]
  refine and_congr_right fun hdigits => ?_
  by_cases hw : w = []
  · subst hw
    by_cases hc : c.toInt = Transfer.minus <;> simp [unsigned, hc]
  · have hc := hdigits c (by simp [unsigned_append_singleton hw])
    rw [isdigit_iff] at hc
    simp only [unsigned_append_singleton hw, Transfer.minus]
    constructor
    · intro _
      omega
    · intro _
      simp

/-- Divisibility does not see the sign. -/
private theorem dvd_value {k : Int} {w : List CChar} : k ∣ value w ↔ k ∣ (decimal (unsigned w) : Int) := by
  unfold value
  split
  · rename_i h
    rw [h]
  · rw [Int.dvd_neg]

/-- The last digit decides divisibility by 5. -/
private theorem five_dvd_value {w : List CChar} {c : CChar} (h : IsNumber (w ++ [c])) :
    5 ∣ value (w ++ [c]) ↔ (c.toInt - 48).tmod 5 = 0 := by
  obtain ⟨hpart, hminus⟩ := isNumber_append_singleton.1 h
  have hlast : ∃ ds, unsigned (w ++ [c]) = ds ++ [c] := by
    by_cases hw : w = []
    · exact ⟨[], by simp [hw, unsigned, hminus]⟩
    · exact ⟨unsigned w, unsigned_append_singleton hw c⟩
  obtain ⟨ds, hds⟩ := hlast
  have hc : isdigit c = true := hpart c (by simp [hds])
  have hdigit := digit_eq hc
  rw [dvd_value, hds, decimal_append_singleton, ← hdigit, Int.tmod_eq_emod_of_nonneg (by omega)]
  omega

/-! ### The head of the loop -/

/-- The text has been read up to `post`: `done` are finished words and `w` is the word that is open. -/
structure Parts (s done w post : List CChar) : Prop where
  split : s = done ++ w ++ post
  done : EndsWithSep isspace done
  word : ∀ c ∈ w, isspace c = false

/-- The locals of `transfer` at the head of the loop. -/
structure At (done w : List CChar) (t : Transfer) : Prop where
  offset : t.offset = done.length + w.length
  i : t.i = done.length + w.length
  lastSp : t.lastSp = done.length - 1
  buf : t.buf = (done ++ w).getLastD 0
  flag : t.flag = false ↔ NumberPart w
  summa : NumberPart w → t.summa = decimal (unsigned w) % 3
  out : t.out = translate done
  -- a byte of a finished word is read at most twice
  bytesRead : t.bytesRead ≤ 2 * done.length + w.length

theorem at_start : At [] [] .start := by
  refine ⟨rfl, rfl, rfl, rfl, ?_, fun _ => rfl, ?_, Nat.zero_le _⟩
  · simp [Transfer.start, NumberPart, unsigned]
  · simp [Transfer.start, translate, mapWords, mapWordsFrom, translateWord_nil]

section Round

variable {s done w post : List CChar} {c : CChar} {t : Transfer}

theorem Parts.letter (h : Parts s done w (c :: post)) (hc : isspace c = false) : Parts s done (w ++ [c]) post := by
  refine ⟨by rw [h.split]; simp, h.done, ?_⟩
  intro d hd
  rcases List.mem_append.1 hd with hd | hd
  · exact h.word d hd
  · rwa [List.mem_singleton.1 hd]

theorem Parts.space (h : Parts s done w (c :: post)) (hc : isspace c = true) :
    Parts s (done ++ w ++ [c]) [] post :=
  ⟨by rw [h.split]; simp, endsWithSep_append_singleton.2 hc, by simp⟩

/-- The byte that the next `read` returns. -/
theorem read_eq (h : Parts s done w (c :: post)) (hoff : t.offset = done.length + w.length) :
    t.read s = { t with cur := c, offset := t.offset + 1, bytesRead := t.bytesRead + 1 } := by
  have hget : s[t.offset]? = some c := by
    rw [hoff, h.split, ← List.length_append, List.getElem?_append_right (Nat.le_refl _), Nat.sub_self]
    rfl
  unfold Transfer.read
  rw [hget]

/-- The byte `c` at the index `i` cannot belong to a number. -/
def badLetter (c : CChar) (i lastSp : Int) : Bool :=
  (c.toInt != Transfer.minus || (i != lastSp + 1 && i != 0)) && (decide (c.toInt < 48) || decide (57 < c.toInt))

private theorem badLetter_eq_false {i l : Int} :
    badLetter c i l = false ↔ isdigit c = true ∨ (c.toInt = Transfer.minus ∧ (i = l + 1 ∨ i = 0)) := by
  rw [isdigit_iff]
  by_cases hm : c.toInt = Transfer.minus
  · by_cases hfirst : i = l + 1 ∨ i = 0
    · rcases hfirst with h | h <;> simp [badLetter, hm, h]
    · obtain ⟨h1, h2⟩ := not_or.1 hfirst
      simp [badLetter, hm, h1, h2, Transfer.minus]
  · simp [badLetter, hm]

private theorem body_letter_eq {len : Int} (hc : isspace c = false)
    (hread : t.read s = { t with cur := c, offset := t.offset + 1, bytesRead := t.bytesRead + 1 }) :
    t.body s len = { t with
      cur := c
      offset := t.offset + 1
      bytesRead := t.bytesRead + 1
      buf := c
      summa := if c.toInt = Transfer.minus then t.summa else (t.summa + c.toInt - 48).tmod 3
      flag := t.flag || badLetter c t.i t.lastSp } := by
  have hflag : (t.read s).testFlag = { t with
      cur := c
      offset := t.offset + 1
      bytesRead := t.bytesRead + 1
      flag := t.flag || badLetter c t.i t.lastSp } := by
    rw [hread]
    unfold Transfer.testFlag
    simp only [hc, Bool.not_false, Bool.true_and, Bool.and_false, Bool.or_false]
    cases hbad : badLetter c t.i t.lastSp <;> unfold badLetter at hbad <;> simp [hbad]
  unfold Transfer.body
  rw [hflag]
  by_cases hm : c.toInt = Transfer.minus <;>
    simp [Transfer.addDigit, Transfer.endWord, Transfer.writeSpace, hc, hm]

/-- A round that reads a letter. -/
theorem body_letter {len : Int} (h : Parts s done w (c :: post)) (hc : isspace c = false) (ht : At done w t) :
    At done (w ++ [c]) { t.body s len with i := (t.body s len).i + 1 } := by
  have hbody : t.body s len = _ := body_letter_eq hc (read_eq h ht.offset)
  have hi := ht.i
  have hsp := ht.lastSp
  rw [hbody]
  refine ⟨?_, ?_, hsp, ?_, ?_, ?_, ht.out, ?_⟩
  · simp [ht.offset]
    omega
  · simp [hi]
    omega
  · rw [← List.append_assoc]
    simp
  · -- a minus sign is good only where the word begins
    have hfirst : (t.i = t.lastSp + 1 ∨ t.i = 0) ↔ w = [] := by
      rw [← List.length_eq_zero_iff]
      omega
    have hbad := badLetter_eq_false (c := c) (i := t.i) (l := t.lastSp)
    rw [hfirst] at hbad
    rw [numberPart_append_singleton, ← ht.flag, ← hbad, Bool.or_eq_false_iff]
  · intro hpart
    obtain ⟨hw, hc'⟩ := numberPart_append_singleton.1 hpart
    have hsumma := ht.summa hw
    rcases hc' with hd | ⟨hm, rfl⟩
    · have hne : c.toInt ≠ Transfer.minus := by
        rw [isdigit_iff] at hd
        unfold Transfer.minus
        omega
      have hunsigned : unsigned (w ++ [c]) = unsigned w ++ [c] := by
        by_cases hw : w = []
        · simp [hw, unsigned, hne]
        · exact unsigned_append_singleton hw c
      have hdigit := digit_eq hd
      have hmod : ((decimal (unsigned w) : Int) % 3 + c.digit) % 3 =
          ((10 * decimal (unsigned w) + c.digit : Nat) : Int) % 3 := by
        omega
      rw [if_neg hne, hunsigned, decimal_append_singleton, hsumma, Int.add_sub_assoc, ← hdigit,
        Int.tmod_eq_emod_of_nonneg (by omega)]
      exact hmod
    · rw [if_pos hm, hsumma]
      simp [unsigned, hm]
  · have hreads := ht.bytesRead
    simp only [List.length_append, List.length_singleton]
    omega

/-! ### The end of a word -/

/-- The copy loop writes the word and stops at the whitespace that follows it. -/
private theorem copyLoop_word {len : Int} {rest : List CChar} (hw : ∀ x ∈ w, isspace x = false) (hc : isspace c = true)
    (hlen : t.i + w.length < len) (hsp : t.lastSp < t.i) :
    Transfer.copyLoop len (w ++ c :: rest) t = { t with
      cur := c
      offset := t.offset + w.length + 1
      bytesRead := t.bytesRead + w.length + 1
      out := t.out ++ w
      i := t.i + w.length } := by
  induction w generalizing t with
  | nil =>
    have hne : t.i ≠ t.lastSp := by omega
    simp [Transfer.copyLoop, hc, hne]
  | cons d w ih =>
    have hd : isspace d = false := hw d (by simp)
    have hw' : ∀ x ∈ w, isspace x = false := fun x hx => hw x (by simp [hx])
    rw [List.length_cons] at hlen
    have hlast : t.i ≠ len - 1 := by omega
    rw [List.cons_append, Transfer.copyLoop]
    simp only [hd, Bool.false_and, Bool.false_eq_true, if_false, Transfer.write, hlast]
    rw [ih hw' (by simp only; omega) (by simp only; omega)]
    simp only [List.length_cons, List.append_assoc, List.singleton_append, Transfer.mk.injEq, true_and]
    exact ⟨by omega, by omega, by omega, trivial⟩

/-- The locals when the whitespace `c` that ends the word `w` has been read. -/
structure AtEnd (done w : List CChar) (c : CChar) (t : Transfer) : Prop where
  cur : t.cur = c
  offset : t.offset = done.length + w.length + 1
  i : t.i = done.length + w.length
  lastSp : t.lastSp = done.length - 1
  flag : t.flag = false ↔ IsNumber w
  summa : IsNumber w → t.summa = decimal (unsigned w) % 3
  buf : IsNumber w → (5 ∣ value w ↔ (t.buf.toInt - 48).tmod 5 = 0)

private theorem copyWord_eq {len : Int} (h : Parts s done w (c :: post)) (hc : isspace c = true) (ht : AtEnd done w c t)
    (hlen : t.i < len) (hcopy : t.flag = true ∨ t.summa ≠ 0) :
    t.copyWord s len = { t with
      bytesRead := t.bytesRead + w.length + 1
      out := t.out ++ w
      summa := 0
      flag := false } := by
  obtain ⟨hcur, hoff, hi, hsp, -, -, -⟩ := ht
  have hstart : (t.lastSp + 1).toNat = done.length := by omega
  have hrest : s.drop done.length = w ++ c :: post := by
    rw [h.split, List.append_assoc, List.drop_left]
  unfold Transfer.copyWord
  simp only [hcopy, if_true, hstart, hrest]
  rw [copyLoop_word h.word hc (by simp only; omega) (by simp only; omega)]
  simp only [hcur, Transfer.mk.injEq, true_and, and_true]
  omega

/-- The three `if`s that end a word write its translation and clear the locals of the word. -/
theorem writeWord_eq {len : Int} (h : Parts s done w (c :: post)) (hc : isspace c = true) (ht : AtEnd done w c t)
    (hlen : t.i < len) :
    ∃ n ≤ w.length + 1, t.writeBizz.writeBuzz.copyWord s len = { t with
      bytesRead := t.bytesRead + n
      out := t.out ++ translateWord w
      summa := 0
      flag := false } := by
  by_cases hnum : IsNumber w
  · have hflag := ht.flag.2 hnum
    have hsum := ht.summa hnum
    have h3 : t.summa.tmod 3 = 0 ↔ 3 ∣ value w := by
      rw [dvd_value, hsum, Int.tmod_eq_emod_of_nonneg (by omega)]
      omega
    have h5 := ht.buf hnum
    by_cases d3 : 3 ∣ value w
    · -- the sum is 0 after `bizz`, so nothing is copied
      refine ⟨0, Nat.zero_le _, ?_⟩
      have hbizz : t.writeBizz = { t.write Transfer.bizz with flag := false, summa := 0 } := by
        simp [Transfer.writeBizz, h3.2 d3, hflag]
      rw [hbizz]
      by_cases d5 : 5 ∣ value w
      · simp [Transfer.writeBuzz, Transfer.copyWord, Transfer.write, translateWord, h5.1 d5, hnum, d3, d5]
      · have h5' := mt h5.2 d5
        simp [Transfer.writeBuzz, Transfer.copyWord, Transfer.write, translateWord, h5', hnum, d3, d5]
    · have h3' := mt h3.1 d3
      have hbizz : t.writeBizz = t := by simp [Transfer.writeBizz, h3']
      rw [hbizz]
      by_cases d5 : 5 ∣ value w
      · refine ⟨0, Nat.zero_le _, ?_⟩
        simp [Transfer.writeBuzz, Transfer.copyWord, Transfer.write, translateWord, h5.1 d5, hflag, hnum, d3, d5]
      · have h5' := mt h5.2 d5
        have hbuzz : t.writeBuzz = t := by simp [Transfer.writeBuzz, h5']
        have hne : t.summa ≠ 0 := fun h0 => h3' (by rw [h0]; rfl)
        refine ⟨w.length + 1, Nat.le_refl _, ?_⟩
        rw [hbuzz, copyWord_eq h hc ht hlen (.inr hne)]
        simp [translateWord, d3, d5, Nat.add_assoc]
  · have hflag : t.flag = true := by
      rw [← Bool.not_eq_false]
      exact fun hf => hnum (ht.flag.1 hf)
    have hbizz : t.writeBizz = t := by simp [Transfer.writeBizz, hflag]
    have hbuzz : t.writeBuzz = t := by simp [Transfer.writeBuzz, hflag]
    refine ⟨w.length + 1, Nat.le_refl _, ?_⟩
    rw [hbizz, hbuzz, copyWord_eq h hc ht hlen (.inl hflag)]
    simp [translateWord, hnum, Nat.add_assoc]

/-- The locals after `read` and the first two `if`s, at a whitespace byte. -/
theorem read_space_eq (h : Parts s done w (c :: post)) (hc : isspace c = true) (ht : At done w t) :
    ((t.read s).testFlag).addDigit = { t with
      cur := c
      offset := t.offset + 1
      bytesRead := t.bytesRead + 1
      flag := t.flag || (t.buf.toInt == Transfer.minus) } := by
  have hflag : (t.read s).testFlag = { t with
      cur := c
      offset := t.offset + 1
      bytesRead := t.bytesRead + 1
      flag := t.flag || (t.buf.toInt == Transfer.minus) } := by
    rw [read_eq h ht.offset]
    unfold Transfer.testFlag
    cases t.buf.toInt == Transfer.minus <;> simp [hc]
  rw [hflag]
  simp [Transfer.addDigit, hc]

/-- The whitespace byte ends the word that was open. -/
theorem At.atEnd (ht : At done w t) (h : Parts s done w (c :: post)) (hc : isspace c = true) (hw : w ≠ []) :
    AtEnd done w c ((t.read s).testFlag).addDigit := by
  rw [read_space_eq h hc ht]
  obtain ⟨v, d, rfl⟩ : ∃ v d, w = v ++ [d] := by
    rcases List.eq_nil_or_concat w with hnil | ⟨v, d, hv⟩
    · exact absurd hnil hw
    · exact ⟨v, d, by rw [hv, List.concat_eq_append]⟩
  have hbuf : t.buf = d := by simp [ht.buf]
  refine ⟨rfl, ?_, ht.i, ht.lastSp, ?_, ?_, ?_⟩
  · rw [← ht.offset]
  · rw [isNumber_append_singleton, ← ht.flag]
    simp [hbuf]
  · intro hnum
    exact ht.summa (isNumber_append_singleton.1 hnum).1
  · intro hnum
    rw [five_dvd_value hnum, hbuf]

/-- A whitespace byte that follows whitespace, or begins the file, ends no word. -/
theorem buf_of_nil (hdone : EndsWithSep isspace done) (ht : At done [] t) :
    t.buf.toInt ≠ Transfer.minus ∧ (t.i = 0 ∨ isspace t.buf = true) := by
  have hbuf := ht.buf
  have hi := ht.i
  rcases endsWithSep_iff.1 hdone with rfl | ⟨d, x, rfl, hx⟩
  · refine ⟨?_, .inl hi⟩
    rw [hbuf]
    decide
  · have hbuf' : t.buf = x := by simpa using hbuf
    refine ⟨?_, .inr (by rw [hbuf', hx])⟩
    rw [isspace_iff] at hx
    rw [hbuf', Transfer.minus]
    omega

/-- The locals when the word before the whitespace `c` has been written. -/
structure AtSpace (done w : List CChar) (c : CChar) (t : Transfer) : Prop where
  cur : t.cur = c
  offset : t.offset = done.length + w.length + 1
  i : t.i = done.length + w.length
  flag : t.flag = false
  summa : t.summa = 0
  out : t.out = translate done ++ translateWord w
  bytesRead : t.bytesRead ≤ 2 * (done.length + w.length + 1)

/-- Writing the whitespace completes the round. -/
theorem AtSpace.next (h : Parts s done w (c :: post)) (hc : isspace c = true) (ht : AtSpace done w c t) :
    At (done ++ w ++ [c]) [] { t.writeSpace with buf := t.writeSpace.cur, i := t.writeSpace.i + 1 } := by
  have hspace : t.writeSpace = { t.write [c] with lastSp := t.i } := by
    simp [Transfer.writeSpace, ht.cur, hc]
  have hnil : NumberPart [] := by simp [NumberPart, unsigned]
  have hoff := ht.offset
  have hi := ht.i
  have hreads := ht.bytesRead
  rw [hspace]
  refine ⟨?_, ?_, ?_, ?_, ?_, ?_, ?_, ?_⟩
  · simp [Transfer.write, hoff]
    omega
  · simp [Transfer.write, hi]
    omega
  · simp [hi]
    omega
  · simp [Transfer.write, ht.cur]
  · simp [Transfer.write, ht.flag, hnil]
  · simp [Transfer.write, ht.summa, unsigned]
  · have hout : translate (done ++ w ++ [c]) = translate done ++ translateWord w ++ [c] :=
      mapWords_append_word translateWord_nil h.done h.word hc
    rw [hout]
    simp [Transfer.write, ht.out]
  · simp only [Transfer.write, List.length_append, List.length_singleton, List.length_nil]
    omega

/-- A round that reads a whitespace byte. -/
theorem body_space {len : Int} (h : Parts s done w (c :: post)) (hc : isspace c = true) (ht : At done w t)
    (hlen : t.i < len) :
    At (done ++ w ++ [c]) [] { t.body s len with i := (t.body s len).i + 1 } := by
  let u : Transfer := { t with
    cur := c
    offset := t.offset + 1
    bytesRead := t.bytesRead + 1
    flag := t.flag || (t.buf.toInt == Transfer.minus) }
  have hread : ((t.read s).testFlag).addDigit = u := read_space_eq h hc ht
  have hoff := ht.offset
  have hi := ht.i
  have hsp := ht.lastSp
  have hreads := ht.bytesRead
  unfold Transfer.body
  rw [hread]
  rcases List.eq_nil_or_concat w with hw | ⟨v, d, hw⟩
  · subst hw
    obtain ⟨hminus, hskip⟩ := buf_of_nil h.done ht
    have hnil : NumberPart [] := by simp [NumberPart, unsigned]
    have hend : u.endWord s len = u := by
      unfold Transfer.endWord
      rcases hskip with h0 | hb
      · simp [u, h0]
      · simp [u, hb]
    rw [hend]
    refine AtSpace.next h hc ⟨rfl, ?_, hi, ?_, ht.summa hnil, ?_, ?_⟩
    · simp [u, hoff]
    · simp [u, ht.flag.2 hnil, hminus]
    · simp [u, ht.out, translateWord_nil]
    · simp only [u, List.length_nil] at hreads ⊢
      omega
  · rw [List.concat_eq_append] at hw
    have hbuf : t.buf = d := by simp [ht.buf, hw]
    have hd : isspace d = false := h.word d (by simp [hw])
    have hpos : 0 < w.length := by simp [hw]
    have hu : AtEnd done w c u := hread ▸ ht.atEnd h hc (List.ne_nil_of_length_pos hpos)
    obtain ⟨n, hn, hwrite⟩ := writeWord_eq h hc hu hlen
    have hend : u.endWord s len = { u with
        bytesRead := u.bytesRead + n
        out := u.out ++ translateWord w
        summa := 0
        flag := false
        buf := c
        lastSp := u.i } := by
      have hi0 : t.i ≠ 0 := by omega
      have hisp : t.i ≠ t.lastSp := by omega
      unfold Transfer.endWord
      rw [if_pos (by simp [u, hc, hbuf, hd, hi0, hisp]), hwrite]
    rw [hend]
    refine AtSpace.next h hc ⟨rfl, ?_, hi, rfl, rfl, ?_, ?_⟩
    · simp [u, hoff]
    · simp [u, ht.out]
    · simp only [u]
      omega

end Round

/-! ### The whole loop -/

/-- What the loop leaves when it has read the text: the locals at the end of its last, open word. -/
theorem loop_at {s done w post : List CChar} {t : Transfer} {fuel : Nat} (h : Parts s done w post) (ht : At done w t)
    (hfuel : post.length < fuel) :
    ∃ t' done' w', Transfer.loop s s.length fuel t = some t' ∧ Parts s done' w' [] ∧ At done' w' t' := by
  induction post generalizing done w t fuel with
  | nil =>
    have hend : (s.length : Int) = t.i := by
      rw [ht.i, h.split]
      simp
    obtain ⟨fuel, rfl⟩ : ∃ n, fuel = n + 1 := ⟨fuel - 1, by omega⟩
    exact ⟨t, done, w, by rw [Transfer.loop, if_neg (by omega)], h, ht⟩
  | cons c post ih =>
    have hlt : t.i < (s.length : Int) := by
      rw [ht.i, h.split]
      simp
    rw [List.length_cons] at hfuel
    obtain ⟨fuel, rfl⟩ : ∃ n, fuel = n + 1 := ⟨fuel - 1, by omega⟩
    rw [Transfer.loop, if_pos hlt]
    by_cases hc : isspace c = true
    · exact ih (h.space hc) (body_space h hc ht hlt) (by omega)
    · rw [Bool.not_eq_true] at hc
      exact ih (h.letter hc) (body_letter h hc ht) (by omega)

theorem parts_start (s : List CChar) : Parts s [] [] s := ⟨rfl, by simp [EndsWithSep], by simp⟩

/-- The output for a text in which no word is left open. -/
private theorem transfer_of_ends {s : List CChar} (hs : EndsWithSep isspace s) {fuel : Nat} (hfuel : s.length < fuel) :
    ∃ t, transfer fuel s s.length = some t ∧ t.out = translate s := by
  obtain ⟨t, done, w, hloop, hparts, hat⟩ := loop_at (parts_start s) at_start hfuel
  have hsplit := hparts.split
  rw [List.append_nil] at hsplit
  rw [hsplit] at hs
  have hw : w = [] := hs.word_eq_nil hparts.word
  rw [hw, List.append_nil] at hsplit
  exact ⟨t, hloop, by rw [hat.out, hsplit]⟩

/-- A text that is empty or ends in whitespace is written translated. -/
theorem transfer_eq (s : List CChar) (hs : EndsWithSep isspace s) (fuel : Nat) (hfuel : s.length < fuel) :
    ∃ t, transfer fuel s s.length = some t ∧ t.out = translate s :=
  transfer_of_ends hs hfuel

/-- Two numbers, a lone minus sign and a word. -/
theorem transfer_eq_fifteen :
    ∃ t, transfer 12 ("-15 7 - a3
".toList.map chr) 11 = some t ∧
      t.out = "bizzbuzz 7 - a3
".toList.map chr :=
  transfer_eq ("-15 7 - a3
".toList.map chr) (by decide) 12 (by decide)

/-! ### A word at the end of the text -/

/-- `\n`. -/
def newline : CChar := 10

private theorem translateWord_ne_nil {w : List CChar} (hw : w ≠ []) : translateWord w ≠ [] := by
  unfold translateWord
  split
  · rename_i h
    rcases h.2 with h3 | h5
    · rw [if_pos h3]
      exact List.append_ne_nil_of_left_ne_nil (by decide) _
    · rw [if_pos h5]
      exact List.append_ne_nil_of_right_ne_nil _ (by decide)
  · exact hw

/-- The word that a text ends in is not written: with a newline behind the text it is. -/
theorem transfer_append_newline {s : List CChar} (hs : ¬ EndsWithSep isspace s) {fuel : Nat}
    (hfuel : s.length + 1 < fuel) :
    ∃ t t' done w, transfer fuel s s.length = some t ∧
      transfer fuel (s ++ [newline]) (s ++ [newline]).length = some t' ∧
      s = done ++ w ∧ w ≠ [] ∧ t.out = translate done ∧ t'.out = translate done ++ translateWord w ++ [newline] := by
  obtain ⟨t, done, w, hloop, hparts, hat⟩ := loop_at (parts_start s) at_start (by omega : s.length < fuel)
  have hsplit := hparts.split
  rw [List.append_nil] at hsplit
  have hw : w ≠ [] := by
    rintro rfl
    rw [List.append_nil] at hsplit
    exact hs (hsplit ▸ hparts.done)
  have hnewline : isspace newline = true := by decide
  have hends : EndsWithSep isspace (s ++ [newline]) := endsWithSep_append_singleton.2 hnewline
  have hlen : (s ++ [newline]).length < fuel := by
    rw [List.length_append, List.length_singleton]
    exact hfuel
  obtain ⟨t', hloop', hat'⟩ := transfer_of_ends hends hlen
  refine ⟨t, t', done, w, hloop, hloop', hsplit, hw, hat.out, ?_⟩
  rw [hat', hsplit]
  exact mapWords_append_word translateWord_nil hparts.done hparts.word hnewline

/-- For no text that ends in a word are the two outputs the same. -/
theorem transfer_ne_of_open (s : List CChar) (hs : s ≠ []) (hlast : ∀ c ∈ s.getLast?, isspace c = false) (fuel : Nat)
    (hfuel : s.length + 1 < fuel) :
    ∃ t t', transfer fuel s s.length = some t ∧ transfer fuel (s ++ [newline]) (s ++ [newline]).length = some t' ∧
      t.out ++ [newline] ≠ t'.out := by
  have hopen : ¬ EndsWithSep isspace s := by
    intro h
    have hc := h (s.getLast hs) (List.getLast?_eq_some_getLast hs)
    rw [hlast _ (List.getLast?_eq_some_getLast hs)] at hc
    cases hc
  obtain ⟨t, t', done, w, hrun, hrun', -, hw, hout, hout'⟩ := transfer_append_newline hopen hfuel
  refine ⟨t, t', hrun, hrun', ?_⟩
  rw [hout, hout']
  intro heq
  rw [List.append_assoc] at heq
  have hnil : [newline] = translateWord w ++ [newline] := List.append_cancel_left heq
  exact translateWord_ne_nil hw (by simpa using hnil)

theorem transfer_ne_of_open_three : ∃ t t', transfer 3 ("3".toList.map chr) ("3".toList.map chr).length = some t ∧
    transfer 3 ("3".toList.map chr ++ [newline]) ("3".toList.map chr ++ [newline]).length = some t' ∧
    t.out ++ [newline] ≠ t'.out :=
  transfer_ne_of_open ("3".toList.map chr) (by decide) (by decide) 3 (by decide)

/-- Nothing is written for the text `3`, and `bizz` for the text `3` and a newline. -/
theorem last_word_lost : ∃ t t', transfer 3 ("3".toList.map chr) 1 = some t ∧
    transfer 3 ("3".toList.map chr ++ [newline]) 2 = some t' ∧ t.out = [] ∧ t'.out = Transfer.bizz ++ [newline] ∧
    t.out ++ [newline] ≠ t'.out :=
  ⟨_, _, rfl, rfl, by decide, by decide, by decide⟩

end UnixTasks.BizzBuzz
