import Mathlib.Data.List.DropRight

/-!
# Words between separators

`mapWords sep f` keeps every separator of a list in its place and applies `f` to every word, a maximal run of other
elements.  The word that is being collected is an argument, so that a program that reads its input from left to right
can be compared with it at every position.

* (`EndsWithSep`) a list in which no word is still open;
* (`mapWords_append_word`) the output grows by one word and one separator at a time;
* (`mapWords_append`, `mapWords_mapWords`) the pieces of a list, and one translation after another;
* (`finished`) a list without the word that is open at its end.
-/

namespace Words

variable {α : Type*} {sep : α → Bool} {f : List α → List α}

/-- `mapWords` of a list that follows the part `w` of a word. -/
def mapWordsFrom (sep : α → Bool) (f : List α → List α) : List α → List α → List α
  | w, [] => f w
  | w, c :: s => if sep c then f w ++ c :: mapWordsFrom sep f [] s else mapWordsFrom sep f (w ++ [c]) s

/-- The list with `f` applied to every word. -/
def mapWords (sep : α → Bool) (f : List α → List α) (s : List α) : List α := mapWordsFrom sep f [] s

/-- The list is empty or its last element is a separator. -/
def EndsWithSep (sep : α → Bool) (s : List α) : Prop := ∀ c ∈ s.getLast?, sep c = true

instance (s : List α) : Decidable (EndsWithSep sep s) := inferInstanceAs (Decidable (∀ c ∈ s.getLast?, sep c = true))

theorem endsWithSep_append_singleton {t : List α} {c : α} : EndsWithSep sep (t ++ [c]) ↔ sep c = true := by
  simp [EndsWithSep]

theorem endsWithSep_iff {s : List α} : EndsWithSep sep s ↔ s = [] ∨ ∃ t c, s = t ++ [c] ∧ sep c = true := by
  constructor
  · intro h
    rcases List.eq_nil_or_concat s with rfl | ⟨t, c, rfl⟩
    · exact .inl rfl
    · rw [List.concat_eq_append] at h ⊢
      exact .inr ⟨t, c, rfl, endsWithSep_append_singleton.1 h⟩
  · rintro (rfl | ⟨t, c, rfl, hc⟩)
    · simp [EndsWithSep]
    · exact endsWithSep_append_singleton.2 hc

/-- A list in which no word is open consists of finished words: what is open at its end is empty. -/
theorem EndsWithSep.word_eq_nil {d w : List α} (h : EndsWithSep sep (d ++ w)) (hw : ∀ c ∈ w, sep c = false) :
    w = [] := by
  rcases List.eq_nil_or_concat w with rfl | ⟨t, c, rfl⟩
  · rfl
  · have hsep := h c (by simp [List.concat_eq_append])
    rw [hw c (by simp [List.concat_eq_append])] at hsep
    cases hsep

theorem mapWordsFrom_word (w : List α) {v : List α} (hv : ∀ c ∈ v, sep c = false) (s : List α) :
    mapWordsFrom sep f w (v ++ s) = mapWordsFrom sep f (w ++ v) s := by
  induction v generalizing w with
  | nil => simp
  | cons c v ih =>
    have hc : sep c = false := hv c (by simp)
    have hv' : ∀ d ∈ v, sep d = false := fun d hd => hv d (by simp [hd])
    rw [List.cons_append, mapWordsFrom, hc, if_neg Bool.false_ne_true, ih (w ++ [c]) hv']
    simp

/-- What follows a separator is mapped on its own. -/
theorem mapWordsFrom_append_sep (hf : f [] = []) (w pre post : List α) {c : α} (hc : sep c = true) :
    mapWordsFrom sep f w (pre ++ c :: post) = mapWordsFrom sep f w (pre ++ [c]) ++ mapWords sep f post := by
  induction pre generalizing w with
  | nil => simp [mapWordsFrom, mapWords, hc, hf]
  | cons d pre ih =>
    rw [List.cons_append, List.cons_append, mapWordsFrom, mapWordsFrom]
    by_cases hd : sep d = true
    · rw [if_pos hd, if_pos hd, ih [], List.append_assoc, List.cons_append]
    · rw [if_neg hd, if_neg hd, ih (w ++ [d])]

/-- After finished words, one more word and its separator. -/
theorem mapWords_append_word (hf : f [] = []) {d w : List α} (hd : EndsWithSep sep d) (hw : ∀ c ∈ w, sep c = false)
    {c : α} (hc : sep c = true) :
    mapWords sep f (d ++ w ++ [c]) = mapWords sep f d ++ f w ++ [c] := by
  have hword : mapWords sep f (w ++ [c]) = f w ++ [c] := by
    unfold mapWords
    rw [mapWordsFrom_word [] hw]
    simp [mapWordsFrom, hc, hf]
  rcases endsWithSep_iff.1 hd with rfl | ⟨t, x, rfl, hx⟩
  · rw [List.nil_append, hword, mapWords, mapWordsFrom, hf, List.nil_append]
  · have happend := mapWordsFrom_append_sep hf [] t (w ++ [c]) hx
    rw [hword] at happend
    simpa [mapWords] using happend

/-- A list in which no word is open, and another one behind it. -/
theorem mapWords_append (hf : f [] = []) {s : List α} (hs : EndsWithSep sep s) (t : List α) :
    mapWords sep f (s ++ t) = mapWords sep f s ++ mapWords sep f t := by
  rcases endsWithSep_iff.1 hs with rfl | ⟨r, c, rfl, hc⟩
  · simp [mapWords, mapWordsFrom, hf]
  · rw [List.append_assoc, List.singleton_append]
    exact mapWordsFrom_append_sep hf [] r t hc

theorem mapWordsFrom_mapWordsFrom {g : List α → List α}
    (hword : ∀ w, (∀ c ∈ w, sep c = false) → ∀ c ∈ f w, sep c = false) {w : List α} (hw : ∀ c ∈ w, sep c = false)
    (s : List α) : mapWords sep g (mapWordsFrom sep f w s) = mapWordsFrom sep (fun v => g (f v)) w s := by
  induction s generalizing w with
  | nil =>
    have h := mapWordsFrom_word (f := g) [] (hword w hw) []
    rw [List.append_nil, List.nil_append] at h
    rw [mapWords, mapWordsFrom, h]
    rfl
  | cons c s ih =>
    rw [mapWordsFrom, mapWordsFrom]
    split
    · rename_i hc
      rw [mapWords, mapWordsFrom_word [] (hword w hw), List.nil_append, mapWordsFrom, if_pos hc]
      exact congrArg _ (congrArg _ (ih fun _ hd => absurd hd List.not_mem_nil))
    · rename_i hc
      refine ih fun d hd => ?_
      rcases List.mem_append.1 hd with hd | hd
      · exact hw d hd
      · rw [List.mem_singleton.1 hd]
        exact Bool.eq_false_iff.2 hc

/-- The words stay words. -/
theorem mapWords_mapWords {g : List α → List α}
    (hword : ∀ w, (∀ c ∈ w, sep c = false) → ∀ c ∈ f w, sep c = false) (s : List α) :
    mapWords sep g (mapWords sep f s) = mapWords sep (fun w => g (f w)) s :=
  mapWordsFrom_mapWordsFrom hword (fun _ hc => absurd hc List.not_mem_nil) s

/-- A separator at the end stays there. -/
theorem exists_mapWordsFrom_append (hf : f [] = []) {c : α} (hc : sep c = true) (w t : List α) :
    ∃ u, mapWordsFrom sep f w (t ++ [c]) = u ++ [c] := by
  induction t generalizing w with
  | nil => exact ⟨f w, by simp [mapWordsFrom, hc, hf]⟩
  | cons d t ih =>
    rw [List.cons_append, mapWordsFrom]
    split
    · obtain ⟨u, hu⟩ := ih []
      exact ⟨f w ++ d :: u, by rw [hu, List.append_assoc, List.cons_append]⟩
    · exact ih (w ++ [d])

theorem endsWithSep_mapWords (hf : f [] = []) {s : List α} (hs : EndsWithSep sep s) :
    EndsWithSep sep (mapWords sep f s) := by
  rcases endsWithSep_iff.1 hs with rfl | ⟨t, c, rfl, hc⟩
  · simpa [mapWords, mapWordsFrom, hf] using hs
  · obtain ⟨u, hu⟩ := exists_mapWordsFrom_append hf hc [] t
    rw [mapWords, hu]
    exact endsWithSep_append_singleton.2 hc

/-- The list up to its last separator. -/
def finished (sep : α → Bool) (s : List α) : List α := s.rdropWhile fun c => !sep c

theorem finished_append {d w : List α} (hd : EndsWithSep sep d) (hw : ∀ c ∈ w, sep c = false) :
    finished sep (d ++ w) = d := by
  induction w using List.reverseRecOn with
  | nil =>
    rw [List.append_nil, finished, List.rdropWhile_eq_self_iff]
    intro hne
    simp [hd _ (List.getLast?_eq_some_getLast hne)]
  | append_singleton w c ih =>
    have hc : sep c = false := hw c (by simp)
    rw [← List.append_assoc, finished, List.rdropWhile_concat_pos _ _ _ (by simp [hc])]
    exact ih fun d hd => hw d (List.mem_append_left _ hd)

theorem endsWithSep_finished (s : List α) : EndsWithSep sep (finished sep s) := by
  intro c hc
  have hne : finished sep s ≠ [] := by
    intro hnil
    rw [hnil] at hc
    cases hc
  rw [List.getLast?_eq_some_getLast hne] at hc
  rw [← Option.some.inj hc]
  have hlast : ¬ (!sep ((finished sep s).getLast hne)) = true := List.rdropWhile_last_not _ _ hne
  simpa using hlast

end Words
