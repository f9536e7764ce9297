import Mathlib.Data.List.Basic
import Mathlib.Data.List.Forall2
import Mathlib.Data.List.TakeWhile

/-!
# Tokens of a string

`strtok_r` skips the separators at the front of a string and takes the characters up to the next one; called again and
again on what it leaves, it gives the tokens of the string.  They are the parts between the separators
(`List.splitOnP`) without the empty ones: `tokens_eq_parts`.  There is at most one token more than there are
separators; characters behind a string belong to its last token up to the next separator.
-/

namespace Tokens

variable {α : Type*} {delim : α → Bool}

/-- `strtok_r(s, delim, &s)`: the token, and what is left behind its separator. -/
def strtok_r (delim : α → Bool) (s : List α) : Option (List α × List α) :=
  match s.dropWhile delim with
  | [] => none
  | c :: s => some ((c :: s).takeWhile (!delim ·), ((c :: s).dropWhile (!delim ·)).tail)

/-- The tokens that at most `fuel` calls give. -/
def tokens (delim : α → Bool) : Nat → List α → List (List α)
  | 0, _ => []
  | fuel + 1, s =>
    match strtok_r delim s with
    | none => []
    | some (token, s) => token :: tokens delim fuel s

/-- The parts between the separators that are not empty. -/
def parts (delim : α → Bool) (s : List α) : List (List α) := (s.splitOnP delim).filter (!·.isEmpty)

/-! ### Parts -/

@[simp] theorem parts_nil : parts delim [] = [] := rfl

theorem parts_cons_delim {c : α} (hc : delim c = true) (s : List α) : parts delim (c :: s) = parts delim s := by
  rw [parts, List.splitOnP_cons_eq_if_modifyHead, if_pos hc]
  rfl

theorem parts_dropWhile (s : List α) : parts delim (s.dropWhile delim) = parts delim s := by
  induction s with
  | nil => rfl
  | cons c s ih =>
    by_cases hc : delim c = true
    · rw [List.dropWhile_cons_of_pos hc, ih, parts_cons_delim hc]
    · rw [List.dropWhile_cons_of_neg hc]

theorem parts_of_forall {w : List α} (hne : w ≠ []) (hw : ∀ c ∈ w, delim c = false) : parts delim w = [w] := by
  rw [parts, List.splitOnP_eq_singleton hw]
  simp [hne]

theorem parts_append_delim {w : List α} (hne : w ≠ []) (hw : ∀ c ∈ w, delim c = false) {c : α} (hc : delim c = true)
    (s : List α) : parts delim (w ++ c :: s) = w :: parts delim s := by
  rw [parts, List.splitOnP_append_cons_of_forall_mem hw c hc]
  simp [hne, parts]

theorem parts_eq_nil_iff {s : List α} : parts delim s = [] ↔ ∀ c ∈ s, delim c = true := by
  rw [← parts_dropWhile, ← List.dropWhile_eq_nil_iff]
  constructor
  · intro h
    by_contra hne
    have hhead := List.head?_dropWhile_not delim s
    obtain ⟨c, s', hs⟩ := List.exists_cons_of_ne_nil hne
    obtain ⟨w, ws, hsplit⟩ := List.exists_cons_of_ne_nil (List.splitOnP_ne_nil delim s')
    rw [hs] at h hhead
    rw [parts, List.splitOnP_cons_eq_if_modifyHead, hhead, if_neg Bool.false_ne_true, hsplit] at h
    simp at h
  · intro h
    rw [h, parts_nil]

theorem length_splitOnP (s : List α) : (s.splitOnP delim).length = s.countP delim + 1 := by
  induction s with
  | nil => rfl
  | cons c s ih =>
    rw [List.splitOnP_cons_eq_if_modifyHead]
    by_cases hc : delim c = true
    · rw [if_pos hc, List.length_cons, ih, List.countP_cons_of_pos hc]
    · rw [if_neg hc, List.length_modifyHead, ih, List.countP_cons_of_neg hc]

/-- As many parts as can be, if and only if none of them is empty. -/
theorem length_parts_eq_iff (s : List α) :
    (parts delim s).length = s.countP delim + 1 ↔ ∀ w ∈ s.splitOnP delim, w ≠ [] := by
  rw [← length_splitOnP, parts, List.length_filter_eq_length_iff]
  simp

theorem parts_eq_splitOnP {s : List α} (h : ∀ w ∈ s.splitOnP delim, w ≠ []) : parts delim s = s.splitOnP delim := by
  rw [parts, List.filter_eq_self]
  simpa using h

/-- Behind a separator the parts begin anew. -/
theorem parts_append_cons (s t : List α) {c : α} (hc : delim c = true) :
    parts delim (s ++ c :: t) = parts delim s ++ parts delim t := by
  rw [parts, List.splitOnP_append_cons s t hc, List.filter_append, parts, parts]

/-- What is put behind a string without a separator goes to its last part. -/
private theorem forall₂_splitOnP_append {t : List α} (ht : ∀ c ∈ t, delim c = false) (s : List α) :
    List.Forall₂ (· <+: ·) (s.splitOnP delim) ((s ++ t).splitOnP delim) := by
  induction s with
  | nil =>
    rw [List.nil_append, List.splitOnP_eq_singleton ht, List.splitOnP_nil]
    exact .cons List.nil_prefix .nil
  | cons c s ih =>
    rw [List.cons_append, List.splitOnP_cons_eq_if_modifyHead, List.splitOnP_cons_eq_if_modifyHead]
    split
    · exact .cons List.prefix_rfl ih
    · revert ih
      generalize s.splitOnP delim = ws
      generalize (s ++ t).splitOnP delim = ws'
      intro ih
      cases ih with
      | nil => exact .nil
      | cons hw hws => exact .cons (List.prefix_cons_inj c |>.2 hw) hws

private theorem exists_of_forall₂ {R : α → α → Prop} {l l' : List α} (h : List.Forall₂ R l l') {b : α} (hb : b ∈ l') :
    ∃ a ∈ l, R a b := by
  induction h with
  | nil => cases hb
  | @cons x y _ _ hxy _ ih =>
    rcases List.mem_cons.1 hb with rfl | hb
    · exact ⟨x, List.mem_cons_self, hxy⟩
    · obtain ⟨a, ha, hab⟩ := ih hb
      exact ⟨a, List.mem_cons_of_mem x ha, hab⟩

/-- Behind a string without an empty part, characters without a separator make no new part: every part has one of the
string in front. -/
theorem parts_append_of_forall {s t : List α} (hs : ∀ w ∈ s.splitOnP delim, w ≠ []) (ht : ∀ c ∈ t, delim c = false) :
    (parts delim (s ++ t)).length = s.countP delim + 1 ∧
      ∀ w ∈ parts delim (s ++ t), ∃ v ∈ parts delim s, v <+: w := by
  have hprefix := forall₂_splitOnP_append ht s
  have hne : ∀ w ∈ (s ++ t).splitOnP delim, w ≠ [] := by
    intro w hw hnil
    obtain ⟨v, hv, hvw⟩ := exists_of_forall₂ hprefix hw
    rw [hnil, List.prefix_nil] at hvw
    exact hs v hv hvw
  rw [parts_eq_splitOnP hne, parts_eq_splitOnP hs, ← hprefix.length_eq, length_splitOnP]
  exact ⟨rfl, fun w hw => exists_of_forall₂ hprefix hw⟩

/-! ### Tokens -/

/-- The token and what is left are parts of the string, and what is left is shorter. -/
theorem strtok_r_some {s token rest : List α} (h : strtok_r delim s = some (token, rest)) :
    parts delim s = token :: parts delim rest ∧ rest.length < s.length := by
  rw [strtok_r] at h
  rw [← parts_dropWhile]
  have hle : (s.dropWhile delim).length ≤ s.length := (List.dropWhile_suffix _).length_le
  cases hs : s.dropWhile delim with
  | nil =>
    rw [hs] at h
    cases h
  | cons c s' =>
    rw [hs] at h hle
    obtain ⟨rfl, rfl⟩ : _ = token ∧ _ = rest := Prod.mk.inj (Option.some.inj h)
    have hc : delim c = false := by
      have hhead := List.head?_dropWhile_not delim s
      rw [hs] at hhead
      simpa using hhead
    have hne : (c :: s').takeWhile (!delim ·) ≠ [] := by
      rw [List.takeWhile_cons_of_pos (by rw [hc]; rfl)]
      exact List.cons_ne_nil _ _
    have hword : ∀ x ∈ (c :: s').takeWhile (!delim ·), delim x = false := by
      intro x hx
      simpa using List.mem_takeWhile_imp hx
    have hsplit := List.takeWhile_append_dropWhile (p := (!delim ·)) (l := c :: s')
    have hlen := congrArg List.length hsplit
    rw [List.length_append] at hlen
    have hpos := List.length_pos_of_ne_nil hne
    cases hdrop : (c :: s').dropWhile (!delim ·) with
    | nil =>
      rw [hdrop, List.append_nil] at hsplit
      refine ⟨?_, Nat.lt_of_lt_of_le (Nat.succ_pos _) hle⟩
      rw [hsplit] at hne hword ⊢
      exact parts_of_forall hne hword
    | cons d rest =>
      have hd : delim d = true := by
        have hhead := List.head?_dropWhile_not (!delim ·) (c :: s')
        rw [hdrop] at hhead
        simpa using hhead
      rw [hdrop] at hsplit hlen
      constructor
      · conv_lhs => rw [← hsplit]
        exact parts_append_delim hne hword hd rest
      · rw [List.length_cons] at hlen
        rw [List.tail_cons]
        omega

theorem strtok_r_none {s : List α} (h : strtok_r delim s = none) : parts delim s = [] := by
  rw [strtok_r] at h
  rw [← parts_dropWhile]
  cases hs : s.dropWhile delim with
  | nil => rfl
  | cons c s' =>
    rw [hs] at h
    cases h

theorem tokens_eq_parts {fuel : Nat} {s : List α} (h : s.length < fuel) : tokens delim fuel s = parts delim s := by
  induction fuel generalizing s with
  | zero => omega
  | succ fuel ih =>
    rw [tokens]
    cases htok : strtok_r delim s with
    | none => rw [strtok_r_none htok]
    | some p =>
      obtain ⟨token, rest⟩ := p
      obtain ⟨hparts, hlt⟩ := strtok_r_some htok
      have hrest : tokens delim fuel rest = parts delim rest := ih (by omega)
      rw [hparts, ← hrest]

end Tokens
