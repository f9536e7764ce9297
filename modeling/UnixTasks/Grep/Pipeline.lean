import UnixTasks.Lib.CString
import UnixTasks.Lib.Tokens
import Mathlib.Data.Nat.Find
import Mathlib.Logic.Function.Basic

/-!
# The pipeline runner

`grep.c` counts the `|` of its text, opens as many pipes, and starts a child for every part that `strtok_r` gives.
Child `j` takes the read end of pipe `j - 1` as its input and the write end of pipe `j` as its output, the first one but
for the input and, when `j` is the number of pipes, the last one but for the output.  Parent and children then close all
the ends of all pipes that are in the array.

The number of pipes counts every `|` of the text, and the children count the parts that are not empty of the string that
`strtok_r` reads.  The program puts no NUL behind the text, so that the string goes on into the memory behind it.  The
main result (`linear_iff`): the children are one pipeline from the parent's input to its output, with no other end left
open, if and only if the text has no empty part and `strtok_r` finds as many parts.  Otherwise the last child writes to
a pipe, or there are children that the text does not have.  For a text without NUL the memory behind it must have no
character but `|` behind a `|` (`plain_iff`).

System calls do not fail.
-/

open CString CChar Tokens

namespace UnixTasks.Grep

/-! ### Descriptors -/

/-- What a descriptor is open for: a file, or an end of pipe number `p`. -/
inductive Obj where
  | file (n : Nat)
  | rd (p : Nat)
  | wr (p : Nat)
deriving DecidableEq

def Obj.isPipe : Obj → Bool
  | .file _ => false
  | .rd _ => true
  | .wr _ => true

/-- The descriptors of a process, all of them from `size` on free. -/
structure Fds where
  get : Nat → Option Obj
  size : Nat
  free : ∀ fd, size ≤ fd → get fd = none

namespace Fds

/-- The lowest free descriptor. -/
def lowest (t : Fds) : Nat := Nat.find (p := fun fd => t.get fd = none) ⟨t.size, t.free _ (Nat.le_refl _)⟩

def set (t : Fds) (fd : Nat) (o : Option Obj) : Fds where
  get := Function.update t.get fd o
  size := max t.size (fd + 1)
  free := by
    intro fd' h
    have hne : fd' ≠ fd := by omega
    rw [Function.update_of_ne hne]
    exact t.free fd' (by omega)

/-- `open(..)`. -/
def openFd (t : Fds) (o : Obj) : Nat × Fds := (t.lowest, t.set t.lowest (some o))

/-- `pipe(..)`: the read end first. -/
def pipe (t : Fds) (p : Nat) : (Nat × Nat) × Fds :=
  let (r, t) := t.openFd (.rd p)
  let (w, t) := t.openFd (.wr p)
  ((r, w), t)

/-- `close(fd)`. -/
def close (t : Fds) (fd : Nat) : Fds := t.set fd none

/-- `dup2(old, new)`, which does nothing where `old` is not open. -/
def dup2 (t : Fds) (old new : Nat) : Fds :=
  match t.get old with
  | some o => t.set new (some o)
  | none => t

@[simp] theorem get_set_self (t : Fds) (fd : Nat) (o : Option Obj) : (t.set fd o).get fd = o := Function.update_self ..

private theorem get_set_of_ne {t : Fds} {fd fd' : Nat} {o : Option Obj} (h : fd' ≠ fd) :
    (t.set fd o).get fd' = t.get fd' :=
  Function.update_of_ne h ..

private theorem get_lowest (t : Fds) : t.get t.lowest = none :=
  Nat.find_spec (p := fun fd => t.get fd = none) ⟨t.size, t.free _ (Nat.le_refl _)⟩

private theorem get_close (t : Fds) (fd fd' : Nat) : (t.close fd).get fd' = if fd' = fd then none else t.get fd' :=
  Function.update_apply ..

private theorem get_dup2_self {t : Fds} {old new : Nat} {o : Obj} (h : t.get old = some o) :
    (t.dup2 old new).get new = some o := by
  rw [dup2, h]
  exact get_set_self ..

private theorem get_dup2_of_ne {t : Fds} {old new fd : Nat} (h : fd ≠ new) : (t.dup2 old new).get fd = t.get fd := by
  rw [dup2]
  cases t.get old with
  | some o => exact get_set_of_ne h
  | none => rfl

end Fds

/-! ### The program -/

def bar : CChar := chr '|'

def blank : CChar := chr ' '

/-- `for (i = 0; i < n; i++) pipe(data_pipe[i])`, on an array of 1000. -/
def openPipes (data_pipe : Nat → Nat × Nat) (t : Fds) : Nat → Option ((Nat → Nat × Nat) × Fds)
  | 0 => some (data_pipe, t)
  | n + 1 =>
    match openPipes data_pipe t n with
    | some (data_pipe, t) =>
      if n < 1000 then
        let (ends, t) := t.pipe n
        some (Function.update data_pipe n ends, t)
      else none
    | none => none

/-- `close_pipes`. -/
def close_pipes (data_pipe : Nat → Nat × Nat) (t : Fds) : Nat → Fds
  | 0 => t
  | n + 1 => ((close_pipes data_pipe t n).close (data_pipe n).1).close (data_pipe n).2

/-- A child when it calls `execvp(comms[0], comms)`. -/
structure Child where
  fds : Fds
  comms : List (List CChar)

/-- Child `j`: the input is redirected once for each word. -/
def child (data_pipe : Nat → Nat × Nat) (t : Fds) (n j : Nat) (substr : List CChar) : Child :=
  let comms := tokens (· == blank) (substr.length + 1) substr
  let t := comms.foldl (fun t _ => if 0 < j then t.dup2 (data_pipe (j - 1)).1 0 else t) t
  let t := if j < n then t.dup2 (data_pipe j).2 1 else t
  { fds := close_pipes data_pipe t n, comms := comms }

/-- `comms` is as long as its part, in bytes, and takes a pointer for each word and the NULL behind them.  From the
result of `malloc(len)` on, the process can write `room len` bytes. -/
def Fits (room : Nat → Nat) (substr : List CChar) : Prop :=
  8 * ((tokens (· == blank) (substr.length + 1) substr).length + 1) ≤ room substr.length

instance (room : Nat → Nat) (substr : List CChar) : Decidable (Fits room substr) := inferInstanceAs (Decidable (_ ≤ _))

/-- The parent and its children, when they have closed the pipes.  The last byte of the file is not read, and the memory
goes on with `behind` where the text ends.  There is no result when an array is left. -/
def main (room : Nat → Nat) (behind : List CChar) (data_pipe : Nat → Nat × Nat) (t : Fds) (file : List CChar) :
    Option (Fds × List Child) :=
  let (_, t) := t.openFd (.file 3)
  let file_str := file.dropLast
  let n := file_str.count bar
  match openPipes data_pipe t n with
  | some (data_pipe, t) =>
    let substrs := tokens (· == bar) ((file_str ++ behind).length + 1) (cstr (file_str ++ behind))
    if ∀ substr ∈ substrs, Fits room substr then
      some (close_pipes data_pipe t n, substrs.mapIdx (child data_pipe t n))
    else none
  | none => none

/-- The descriptors that the program starts with: an input and an output, and no pipes of its own. -/
structure Start where
  fds : Fds
  input : fds.get 0 ≠ none
  output : fds.get 1 ≠ none
  files : ∀ fd o, fds.get fd = some o → o.isPipe = false

/-- The children are one pipeline of `k`, and nobody holds another end of a pipe. -/
structure Linear (t : Fds) (k : Nat) (parent : Fds) (children : List Child) : Prop where
  length : children.length = k
  input : ∀ c ∈ children.head?, c.fds.get 0 = t.get 0
  output : ∀ c ∈ children.getLast?, c.fds.get 1 = t.get 1
  linked : ∀ j c d, children[j]? = some c → children[j + 1]? = some d →
    c.fds.get 1 = some (.wr j) ∧ d.fds.get 0 = some (.rd j)
  parent_closed : ∀ fd o, parent.get fd = some o → o.isPipe = false
  closed : ∀ j c fd o, children[j]? = some c → c.fds.get fd = some o → o.isPipe = true →
    (fd = 0 ∧ 0 < j ∧ o = .rd (j - 1)) ∨ (fd = 1 ∧ j + 1 < k ∧ o = .wr j)

/-- The parts of a text between the `|` that are not empty. -/
def segments (text : List CChar) : List (List CChar) := parts (· == bar) text

/-- The text has no empty part, and the string from its beginning on has as many parts as the text; every one that a
pipe leads to has a word, and there is room for its words. -/
structure Plain (room : Nat → Nat) (text behind : List CChar) : Prop where
  nonempty : ∀ w ∈ text.splitOn bar, w ≠ []
  length : (segments (cstr (text ++ behind))).length = text.count bar + 1
  words : ∀ w ∈ (segments (cstr (text ++ behind))).tail, ∃ c ∈ w, c ≠ blank
  fits : ∀ w ∈ segments (cstr (text ++ behind)), Fits room w

/-! ### The pipes -/

private theorem Fds.get_set_of_open {t : Fds} {fd fd' : Nat} {o : Option Obj} (hfree : t.get fd = none)
    (h : t.get fd' ≠ none) : (t.set fd o).get fd' = t.get fd' := by
  apply get_set_of_ne
  intro heq
  rw [heq] at h
  exact h hfree

/-- What a call of `pipe` does: two free descriptors become the ends of the pipe. -/
private theorem Fds.pipe_spec (t : Fds) (p : Nat) :
    (t.get (t.pipe p).1.1 = none ∧ (t.pipe p).2.get (t.pipe p).1.1 = some (.rd p)) ∧
    (t.get (t.pipe p).1.2 = none ∧ (t.pipe p).2.get (t.pipe p).1.2 = some (.wr p)) ∧
    ∀ fd, fd ≠ (t.pipe p).1.1 → fd ≠ (t.pipe p).1.2 → (t.pipe p).2.get fd = t.get fd := by
  have hr := t.get_lowest
  have hw := (t.set t.lowest (some (.rd p))).get_lowest
  have hne : (t.set t.lowest (some (.rd p))).lowest ≠ t.lowest := by
    intro heq
    rw [heq, get_set_self] at hw
    cases hw
  refine ⟨⟨hr, ?_⟩, ⟨?_, get_set_self ..⟩, ?_⟩
  · have hopen : (t.set t.lowest (some (.rd p))).get t.lowest = some (.rd p) := get_set_self ..
    exact (get_set_of_open hw fun hnone => Option.some_ne_none _ (hopen.symm.trans hnone)).trans hopen
  · rwa [get_set_of_ne hne] at hw
  · intro fd h1 h2
    exact (get_set_of_ne h2).trans (get_set_of_ne h1)

/-- `n` pipes have been opened, on descriptors that were free before. -/
structure Piped (t₀ t : Fds) (data_pipe : Nat → Nat × Nat) (n : Nat) : Prop where
  rd : ∀ i < n, t.get (data_pipe i).1 = some (.rd i)
  wr : ∀ i < n, t.get (data_pipe i).2 = some (.wr i)
  free_rd : ∀ i < n, t₀.get (data_pipe i).1 = none
  free_wr : ∀ i < n, t₀.get (data_pipe i).2 = none
  rest : ∀ fd, (∀ i < n, fd ≠ (data_pipe i).1 ∧ fd ≠ (data_pipe i).2) → t.get fd = t₀.get fd

section Pipes

variable {t₀ t : Fds} {data_pipe : Nat → Nat × Nat} {n : Nat}

theorem Piped.zero (t : Fds) (data_pipe : Nat → Nat × Nat) : Piped t t data_pipe 0 where
  rd _ h := absurd h (Nat.not_lt_zero _)
  wr _ h := absurd h (Nat.not_lt_zero _)
  free_rd _ h := absurd h (Nat.not_lt_zero _)
  free_wr _ h := absurd h (Nat.not_lt_zero _)
  rest _ _ := rfl

/-- A descriptor that is free is none of the ends. -/
private theorem Piped.ne_of_free (h : Piped t₀ t data_pipe n) {fd : Nat} (hfd : t.get fd = none) :
    ∀ i < n, fd ≠ (data_pipe i).1 ∧ fd ≠ (data_pipe i).2 := by
  intro i hi
  constructor
  · intro heq
    rw [heq, h.rd i hi] at hfd
    cases hfd
  · intro heq
    rw [heq, h.wr i hi] at hfd
    cases hfd

theorem Piped.pipe (h : Piped t₀ t data_pipe n) :
    Piped t₀ (t.pipe n).2 (Function.update data_pipe n (t.pipe n).1) (n + 1) := by
  obtain ⟨⟨hr, hrd⟩, ⟨hw, hwr⟩, hrest⟩ := t.pipe_spec n
  have hold : ∀ fd o, t.get fd = some o → (t.pipe n).2.get fd = some o := by
    intro fd o ho
    rw [hrest fd ?_ ?_, ho]
    · intro heq
      rw [heq, hr] at ho
      cases ho
    · intro heq
      rw [heq, hw] at ho
      cases ho
  have hpipe : ∀ i < n, Function.update data_pipe n (t.pipe n).1 i = data_pipe i :=
    fun i hi => Function.update_of_ne (Nat.ne_of_lt hi) ..
  have hself : Function.update data_pipe n (t.pipe n).1 n = (t.pipe n).1 := Function.update_self ..
  constructor
  · intro i hi
    rcases Nat.lt_succ_iff_lt_or_eq.1 hi with hi | rfl
    · rw [hpipe i hi]
      exact hold _ _ (h.rd i hi)
    · rw [hself, hrd]
  · intro i hi
    rcases Nat.lt_succ_iff_lt_or_eq.1 hi with hi | rfl
    · rw [hpipe i hi]
      exact hold _ _ (h.wr i hi)
    · rw [hself, hwr]
  · intro i hi
    rcases Nat.lt_succ_iff_lt_or_eq.1 hi with hi | rfl
    · rw [hpipe i hi]
      exact h.free_rd i hi
    · rw [hself, ← h.rest _ (h.ne_of_free hr), hr]
  · intro i hi
    rcases Nat.lt_succ_iff_lt_or_eq.1 hi with hi | rfl
    · rw [hpipe i hi]
      exact h.free_wr i hi
    · rw [hself, ← h.rest _ (h.ne_of_free hw), hw]
  · intro fd hfd
    have hn := hfd n (Nat.lt_succ_self n)
    rw [hself] at hn
    rw [hrest fd hn.1 hn.2]
    apply h.rest
    intro i hi
    have hi' := hfd i (Nat.lt_succ_of_lt hi)
    rwa [hpipe i hi] at hi'

private theorem openPipes_eq (data_pipe : Nat → Nat × Nat) (t : Fds) (hn : n ≤ 1000) :
    ∃ data_pipe' t', openPipes data_pipe t n = some (data_pipe', t') ∧ Piped t t' data_pipe' n := by
  induction n with
  | zero => exact ⟨data_pipe, t, rfl, .zero ..⟩
  | succ n ih =>
    obtain ⟨data_pipe', t', heq, hpiped⟩ := ih (by omega)
    refine ⟨_, _, ?_, hpiped.pipe⟩
    simp only [openPipes, heq]
    rw [if_pos (by omega)]

private theorem get_close_pipes_of_ne {fd : Nat} (h : ∀ i < n, fd ≠ (data_pipe i).1 ∧ fd ≠ (data_pipe i).2) :
    (close_pipes data_pipe t n).get fd = t.get fd := by
  induction n with
  | zero => rfl
  | succ n ih =>
    obtain ⟨h1, h2⟩ := h n (Nat.lt_succ_self n)
    rw [close_pipes, Fds.get_close, if_neg h2, Fds.get_close, if_neg h1]
    exact ih fun i hi => h i (Nat.lt_succ_of_lt hi)

private theorem get_close_pipes_end {fd i : Nat} (hi : i < n) (h : fd = (data_pipe i).1 ∨ fd = (data_pipe i).2) :
    (close_pipes data_pipe t n).get fd = none := by
  induction n with
  | zero => omega
  | succ n ih =>
    rw [close_pipes, Fds.get_close, Fds.get_close]
    split
    · rfl
    · split
      · rfl
      · rename_i h2 h1
        rcases Nat.lt_succ_iff_lt_or_eq.1 hi with hi | rfl
        · exact ih hi
        · rcases h with h | h
          · exact absurd h h1
          · exact absurd h h2

/-- What is left open when the pipes are closed, was open before the pipes. -/
private theorem Piped.get_close_pipes (h : Piped t₀ t data_pipe n) {t' : Fds} {fd : Nat} (ht' : t'.get fd = t.get fd)
    {o : Obj} (ho : (close_pipes data_pipe t' n).get fd = some o) : t₀.get fd = some o := by
  have hne : ∀ i < n, fd ≠ (data_pipe i).1 ∧ fd ≠ (data_pipe i).2 := by
    intro i hi
    rw [← not_or]
    intro hend
    rw [get_close_pipes_end hi hend] at ho
    cases ho
  rw [← h.rest fd hne, ← ht', ← get_close_pipes_of_ne hne, ho]

/-- The descriptors that were open are none of the ends. -/
private theorem Piped.ne_of_open (h : Piped t₀ t data_pipe n) {fd : Nat} (hfd : t₀.get fd ≠ none) :
    ∀ i < n, fd ≠ (data_pipe i).1 ∧ fd ≠ (data_pipe i).2 := by
  intro i hi
  constructor
  · intro heq
    rw [heq] at hfd
    exact hfd (h.free_rd i hi)
  · intro heq
    rw [heq] at hfd
    exact hfd (h.free_wr i hi)

/-! ### A child -/

/-- The input is redirected as often as there are words. -/
private theorem get_redirect_of_ne {old fd : Nat} (hfd : fd ≠ 0) (j : Nat) (comms : List (List CChar)) :
    (comms.foldl (fun t _ => if 0 < j then t.dup2 old 0 else t) t).get fd = t.get fd := by
  induction comms generalizing t with
  | nil => rfl
  | cons c comms ih =>
    rw [List.foldl_cons, ih]
    split
    · exact Fds.get_dup2_of_ne hfd
    · rfl

private theorem redirect_zero (old : Nat) (comms : List (List CChar)) :
    comms.foldl (fun t _ => if 0 < 0 then t.dup2 old 0 else t) t = t := by
  induction comms with
  | nil => rfl
  | cons c comms ih => exact ih

private theorem get_redirect {old j : Nat} {o : Obj} (hj : 0 < j) (hold : old ≠ 0) (ho : t.get old = some o)
    {comms : List (List CChar)} (h : comms ≠ [] ∨ t.get 0 = some o) :
    (comms.foldl (fun t _ => if 0 < j then t.dup2 old 0 else t) t).get 0 = some o := by
  induction comms generalizing t with
  | nil => exact h.resolve_left fun h => h rfl
  | cons c comms ih =>
    rw [List.foldl_cons, if_pos hj]
    apply ih
    · rw [Fds.get_dup2_of_ne hold, ho]
    · exact .inr (Fds.get_dup2_self ho)

/-- The words of a part. -/
def words (substr : List CChar) : List (List CChar) := parts (· == blank) substr

private theorem words_ne_nil_iff {substr : List CChar} : words substr ≠ [] ↔ ∃ c ∈ substr, c ≠ blank := by
  rw [words, Ne, parts_eq_nil_iff]
  simp

theorem comms_eq (data_pipe : Nat → Nat × Nat) (t : Fds) (n j : Nat) (substr : List CChar) :
    (child data_pipe t n j substr).comms = words substr := tokens_eq_parts (Nat.lt_succ_self _)

/-- The descriptors of a child before it closes the pipes: `t₁` with the input, `t₂` with the output as well. -/
private theorem child_fds (data_pipe : Nat → Nat × Nat) (t : Fds) (n j : Nat) (substr : List CChar) :
    ∃ t₁ t₂ : Fds, (child data_pipe t n j substr).fds = close_pipes data_pipe t₂ n ∧
      t₁ = (words substr).foldl (fun t _ => if 0 < j then t.dup2 (data_pipe (j - 1)).1 0 else t) t ∧
      t₂ = if j < n then t₁.dup2 (data_pipe j).2 1 else t₁ := by
  rw [← comms_eq data_pipe t n j]
  exact ⟨_, _, rfl, rfl, rfl⟩

/-- The output is redirected where there is a next pipe, and nothing else is. -/
private theorem get_output_of_ne {j old fd : Nat} (hfd : fd ≠ 1) :
    (if j < n then t.dup2 old 1 else t).get fd = t.get fd := by
  split
  · exact Fds.get_dup2_of_ne hfd
  · rfl

variable {j : Nat} {substr : List CChar}

private theorem child_input_of_none (h : Piped t₀ t data_pipe n) (hinput : t₀.get 0 ≠ none)
    (hnone : j = 0 ∨ words substr = []) :
    (child data_pipe t n j substr).fds.get 0 = t₀.get 0 := by
  obtain ⟨t₁, t₂, heq, ht₁, ht₂⟩ := child_fds data_pipe t n j substr
  have hne := h.ne_of_open hinput
  have h1 : t₁ = t := by
    rw [ht₁]
    rcases hnone with rfl | hwords
    · exact redirect_zero ..
    · rw [hwords, List.foldl_nil]
  rw [heq, get_close_pipes_of_ne hne, ht₂, get_output_of_ne Nat.zero_ne_one, h1, h.rest 0 hne]

private theorem child_input (h : Piped t₀ t data_pipe n) (hinput : t₀.get 0 ≠ none) (hj : 0 < j) (hjn : j ≤ n)
    (hwords : words substr ≠ []) :
    (child data_pipe t n j substr).fds.get 0 = some (.rd (j - 1)) := by
  obtain ⟨t₁, t₂, heq, ht₁, ht₂⟩ := child_fds data_pipe t n j substr
  have hne := h.ne_of_open hinput
  have hlt : j - 1 < n := by omega
  have h1 : t₁.get 0 = some (.rd (j - 1)) := by
    rw [ht₁]
    exact get_redirect hj (hne _ hlt).1.symm (h.rd _ hlt) (.inl hwords)
  rw [heq, get_close_pipes_of_ne hne, ht₂, get_output_of_ne Nat.zero_ne_one, h1]

private theorem child_output (h : Piped t₀ t data_pipe n) (hinput : t₀.get 0 ≠ none) (houtput : t₀.get 1 ≠ none)
    (hjn : j < n) :
    (child data_pipe t n j substr).fds.get 1 = some (.wr j) := by
  obtain ⟨t₁, t₂, heq, ht₁, ht₂⟩ := child_fds data_pipe t n j substr
  have h1 : t₁.get (data_pipe j).2 = some (.wr j) := by
    rw [ht₁, get_redirect_of_ne (h.ne_of_open hinput j hjn).2.symm, h.wr j hjn]
  rw [heq, get_close_pipes_of_ne (h.ne_of_open houtput), ht₂, if_pos hjn]
  exact Fds.get_dup2_self h1

private theorem child_output_last (h : Piped t₀ t data_pipe n) (houtput : t₀.get 1 ≠ none) (hjn : n ≤ j) :
    (child data_pipe t n j substr).fds.get 1 = t₀.get 1 := by
  obtain ⟨t₁, t₂, heq, ht₁, ht₂⟩ := child_fds data_pipe t n j substr
  have hne := h.ne_of_open houtput
  rw [heq, get_close_pipes_of_ne hne, ht₂, if_neg (Nat.not_lt.2 hjn), ht₁, get_redirect_of_ne Nat.one_ne_zero,
    h.rest 1 hne]

private theorem child_other (h : Piped t₀ t data_pipe n) {fd : Nat} (h0 : fd ≠ 0) (h1 : fd ≠ 1) {o : Obj}
    (ho : (child data_pipe t n j substr).fds.get fd = some o) : t₀.get fd = some o := by
  obtain ⟨t₁, t₂, heq, ht₁, ht₂⟩ := child_fds data_pipe t n j substr
  rw [heq] at ho
  refine h.get_close_pipes ?_ ho
  rw [ht₂, get_output_of_ne h1, ht₁, get_redirect_of_ne h0]

end Pipes

/-! ### The pipeline -/

/-- After the command file has been opened. -/
def Start.opened (t : Start) : Start where
  fds := (t.fds.openFd (.file 3)).2
  input := by
    rw [Fds.openFd, Fds.get_set_of_open t.fds.get_lowest t.input]
    exact t.input
  output := by
    rw [Fds.openFd, Fds.get_set_of_open t.fds.get_lowest t.output]
    exact t.output
  files := by
    intro fd o ho
    by_cases hfd : fd = t.fds.lowest
    · rw [hfd, Fds.openFd, Fds.get_set_self] at ho
      cases ho
      rfl
    · rw [Fds.openFd, Fds.get_set_of_ne hfd] at ho
      exact t.files fd o ho

private theorem Start.get_opened (t : Start) {fd : Nat} (h : t.fds.get fd ≠ none) :
    t.opened.fds.get fd = t.fds.get fd :=
  Fds.get_set_of_open t.fds.get_lowest h

/-- What the parent and the children are, with the array and the descriptors after the pipes. -/
private theorem main_eq (room : Nat → Nat) (behind : List CChar) (data_pipe : Nat → Nat × Nat) (t : Start)
    {file : List CChar} (hn : file.dropLast.count bar ≤ 1000) :
    ∃ data_pipe' t', Piped t.opened.fds t' data_pipe' (file.dropLast.count bar) ∧
      main room behind data_pipe t.fds file =
        if ∀ w ∈ segments (cstr (file.dropLast ++ behind)), Fits room w then
          some (close_pipes data_pipe' t' (file.dropLast.count bar),
            (segments (cstr (file.dropLast ++ behind))).mapIdx (child data_pipe' t' (file.dropLast.count bar)))
        else none := by
  obtain ⟨data_pipe', t', heq, hpiped⟩ := openPipes_eq data_pipe t.opened.fds hn
  have htokens : tokens (· == bar) ((file.dropLast ++ behind).length + 1) (cstr (file.dropLast ++ behind)) =
      segments (cstr (file.dropLast ++ behind)) := tokens_eq_parts (Nat.lt_succ_of_le (length_cstr_le _))
  refine ⟨data_pipe', t', hpiped, ?_⟩
  rw [Start.opened] at heq
  simp only [main, Fds.openFd] at heq ⊢
  rw [heq, htokens]

section Text

variable {text : List CChar}

/-- There is a part for each pipe and one more if and only if none of them is empty. -/
private theorem length_segments_eq_iff : (segments text).length = text.count bar + 1 ↔ ∀ w ∈ text.splitOn bar, w ≠ [] :=
  length_parts_eq_iff text

end Text

section Main

variable {room : Nat → Nat} {t : Start} {t' : Fds} {data_pipe : Nat → Nat × Nat} {text behind : List CChar}

/-- Every part but the first has a word. -/
private theorem words_ne_nil_of_plain (h : Plain room text behind) {j : Nat} {w : List CChar} (hj : 0 < j)
    (hw : (segments (cstr (text ++ behind)))[j]? = some w) : words w ≠ [] := by
  rw [words_ne_nil_iff]
  apply h.words
  obtain ⟨j, rfl⟩ : ∃ i, j = i + 1 := ⟨j - 1, by omega⟩
  rw [← List.getElem?_tail] at hw
  exact List.mem_of_getElem? hw

/-- The child of a part. -/
private theorem getElem?_children {parts : List (List CChar)} {n j : Nat} {c : Child} :
    (parts.mapIdx (child data_pipe t' n))[j]? = some c ↔ ∃ w, parts[j]? = some w ∧ child data_pipe t' n j w = c := by
  rw [List.getElem?_mapIdx, Option.map_eq_some_iff]

theorem linear_of_plain (hpiped : Piped t.opened.fds t' data_pipe (text.count bar)) (h : Plain room text behind) :
    Linear t.fds (segments text).length (close_pipes data_pipe t' (text.count bar))
      ((segments (cstr (text ++ behind))).mapIdx (child data_pipe t' (text.count bar))) := by
  have hm := h.length
  have hk : (segments text).length = text.count bar + 1 := length_segments_eq_iff.2 h.nonempty
  have hbound : ∀ {j : Nat} {w : List CChar}, (segments (cstr (text ++ behind)))[j]? = some w →
      j ≤ text.count bar := by
    intro j w hw
    have hlt := (List.getElem?_eq_some_iff.1 hw).1
    omega
  constructor
  · rw [List.length_mapIdx, hm, hk]
  · intro c hc
    rw [List.head?_eq_getElem?] at hc
    obtain ⟨w, -, rfl⟩ := getElem?_children.1 hc
    rw [child_input_of_none hpiped t.opened.input (.inl rfl), t.get_opened t.input]
  · intro c hc
    rw [List.getLast?_eq_getElem?, List.length_mapIdx, hm, Nat.add_sub_cancel] at hc
    obtain ⟨w, -, rfl⟩ := getElem?_children.1 hc
    rw [child_output_last hpiped t.opened.output (Nat.le_refl _), t.get_opened t.output]
  · intro j c d hc hd
    obtain ⟨w, -, rfl⟩ := getElem?_children.1 hc
    obtain ⟨w', hw', rfl⟩ := getElem?_children.1 hd
    have hj := hbound hw'
    exact ⟨child_output hpiped t.opened.input t.opened.output hj,
      child_input hpiped t.opened.input (Nat.succ_pos j) hj (words_ne_nil_of_plain h (Nat.succ_pos j) hw')⟩
  · intro fd o ho
    exact t.opened.files fd o (hpiped.get_close_pipes rfl ho)
  · intro j c fd o hc ho hpipe
    obtain ⟨w, hw, rfl⟩ := getElem?_children.1 hc
    have hj := hbound hw
    -- an end that is open has been put on the descriptor 0 or 1
    have hfile : t.opened.fds.get fd ≠ some o := by
      intro heq
      rw [t.opened.files fd o heq] at hpipe
      cases hpipe
    by_cases h0 : fd = 0
    · subst h0
      by_cases hpos : 0 < j
      · rw [child_input hpiped t.opened.input hpos hj (words_ne_nil_of_plain h hpos hw)] at ho
        exact .inl ⟨rfl, hpos, (Option.some.inj ho).symm⟩
      · rw [child_input_of_none hpiped t.opened.input (.inl (by omega))] at ho
        exact absurd ho hfile
    · by_cases h1 : fd = 1
      · subst h1
        by_cases hlt : j < text.count bar
        · rw [child_output hpiped t.opened.input t.opened.output hlt] at ho
          exact .inr ⟨rfl, by omega, (Option.some.inj ho).symm⟩
        · rw [child_output_last hpiped t.opened.output (by omega)] at ho
          exact absurd ho hfile
      · exact absurd (child_other hpiped h0 h1 ho) hfile

end Main

section Result

variable {room : Nat → Nat} {data_pipe : Nat → Nat × Nat} {t : Start} {file text behind : List CChar}

/-- What is put behind a text goes to its last part up to the first `|`. -/
private theorem segments_append (text b : List CChar) :
    segments (text ++ b) = segments (text ++ b.takeWhile (· != bar)) ++ segments (b.dropWhile (· != bar)) := by
  conv_lhs => rw [← List.takeWhile_append_dropWhile (p := (· != bar)) (l := b), ← List.append_assoc]
  have hhead := List.head?_dropWhile_not (· != bar) b
  cases hdrop : b.dropWhile (· != bar) with
  | nil => rw [List.append_nil, segments, segments, parts_nil, List.append_nil]
  | cons c cs =>
    have hc : (c == bar) = true := by
      rw [hdrop] at hhead
      simpa using hhead
    have hcons : segments (c :: cs) = segments cs := @parts_cons_delim _ (· == bar) c hc cs
    rw [hcons]
    exact @parts_append_cons _ (· == bar) _ _ c hc

private theorem takeWhile_ne_bar (b : List CChar) : ∀ c ∈ b.takeWhile (· != bar), (c == bar) = false := by
  intro c hc
  simpa using List.mem_takeWhile_imp hc

/-- Behind a text without an empty part a string makes no new part if and only if it has only `|` from its first one
on. -/
private theorem length_segments_append_iff {b : List CChar} (h : ∀ w ∈ text.splitOn bar, w ≠ []) :
    (segments (text ++ b)).length = text.count bar + 1 ↔ ∀ c ∈ b.dropWhile (· != bar), c = bar := by
  have hlen : (segments (text ++ b.takeWhile (· != bar))).length = text.count bar + 1 :=
    (parts_append_of_forall h (takeWhile_ne_bar b)).1
  rw [segments_append, List.length_append, hlen, Nat.add_eq_left, List.length_eq_zero_iff, segments, parts_eq_nil_iff]
  simp only [beq_iff_eq]

/-- For a text without NUL, no part of which is blank: it has no empty part, the string behind it has only `|` from its
first one on, and the words have room. -/
theorem plain_iff (hnul : 0 ∉ text) (hblank : ∀ w ∈ segments text, ∃ c ∈ w, c ≠ blank) :
    Plain room text behind ↔ (∀ w ∈ text.splitOn bar, w ≠ []) ∧
      (∀ c ∈ (cstr behind).dropWhile (· != bar), c = bar) ∧
      ∀ w ∈ segments (text ++ cstr behind), Fits room w := by
  have hstring : cstr (text ++ behind) = text ++ cstr behind := cstr_append hnul behind
  constructor
  · intro h
    have hlen := h.length
    have hfits := h.fits
    rw [hstring] at hlen hfits
    exact ⟨h.nonempty, (length_segments_append_iff h.nonempty).1 hlen, hfits⟩
  · rintro ⟨hne, hbehind, hfits⟩
    have hlen := (length_segments_append_iff hne).2 hbehind
    rw [← hstring] at hlen hfits
    refine ⟨hne, hlen, fun w hw => ?_, hfits⟩
    -- a part of the string has a part of the text in front
    have hrest : segments ((cstr behind).dropWhile (· != bar)) = [] := parts_eq_nil_iff.2 (by simpa using hbehind)
    rw [hstring, segments_append, hrest, List.append_nil] at hw
    obtain ⟨v, hv, hvw⟩ := (parts_append_of_forall hne (takeWhile_ne_bar _)).2 w (List.mem_of_mem_tail hw)
    obtain ⟨c, hc, hne⟩ := hblank v hv
    exact ⟨c, hvw.mem hc, hne⟩

/-- The children that a plain text has. -/
theorem main_of_plain (hn : file.dropLast.count bar ≤ 1000) (h : Plain room file.dropLast behind) :
    ∃ data_pipe' t', Piped t.opened.fds t' data_pipe' (file.dropLast.count bar) ∧
      main room behind data_pipe t.fds file = some (close_pipes data_pipe' t' (file.dropLast.count bar),
        (segments (cstr (file.dropLast ++ behind))).mapIdx (child data_pipe' t' (file.dropLast.count bar))) := by
  obtain ⟨data_pipe', t', hpiped, hmain⟩ := main_eq room behind data_pipe t hn
  rw [if_pos h.fits] at hmain
  exact ⟨data_pipe', t', hpiped, hmain⟩

/-- The descriptors 0, 1 and 2. -/
def Start.standard : Start where
  fds := { get := fun fd => if fd < 3 then some (.file fd) else none, size := 3, free := fun fd h => if_neg (by omega) }
  input := by decide
  output := by decide
  files := by
    intro fd o ho
    dsimp only at ho
    split at ho
    · cases ho
      rfl
    · cases ho

end Result

end UnixTasks.Grep
