import Mathlib.Algebra.Order.BigOperators.Group.List
import Mathlib.Algebra.Order.Ring.Nat
import Mathlib.Data.List.Infix
import Mathlib.Logic.Function.Iterate
import Mathlib.Tactic.Common

/-!
# Sequential programs in a row

Every program reads what the one before it writes, value by value, through a buffer; the first one reads a given input.
A program whose reader has exited may be killed by its next write.  The steps of the programs are taken in any order.

* (`meaning`) what a program makes of a whole input, which may be without end;
* (`stream`) the inputs of the programs, each the meaning of the one before;
* (`State`, `Step`) the programs with their buffers;
* (`Follows`) every program has come to some place of its run on its whole input (`follows_step`);
* (`Follows.output_eq`, `Follows.output_final`) the output is an initial part of the meaning of the row, and all of it
  when the last program has exited, whatever the order of the steps;
* (`exists_ready`) with buffers of any positive length: while a program has not exited, some program can go on;
* (`Credit`) a bound for the number of steps, when the programs come to their ends.
-/

namespace Dataflow

variable {P β : Type*}

/-- What a program does next; a read gives `none` at the end of the input. -/
inductive Act (P β : Type*) where
  | read (next : Option β → P)
  | write (b : β) (next : P)
  | exit

/-! ### One program -/

/-- A program that has read `pos` values of its input and written `out`. -/
structure Place (P β : Type*) where
  prog : P
  pos : Nat
  out : List β

def Place.start (p : P) : Place P β := ⟨p, 0, []⟩

section Meaning

variable (act : P → Act P β) (X : Nat → Option β)

/-- The next place, on the input whose value number `i` is `X i`. -/
def Place.next (r : Place P β) : Place P β :=
  match act r.prog with
  | .read next =>
    match X r.pos with
    | some b => ⟨next (some b), r.pos + 1, r.out⟩
    | none => ⟨next none, r.pos, r.out⟩
  | .write b q => ⟨q, r.pos, r.out ++ [b]⟩
  | .exit => r

/-- The place after `n` steps. -/
def Place.after (p : P) (n : Nat) : Place P β := (Place.next act X)^[n] (.start p)

variable {act X} {p : P} {n m : Nat}

theorem getElem?_of_initial {xs ys : List β} {j : Nat} (h : xs <+: ys) (hj : j < xs.length) : xs[j]? = ys[j]? := by
  obtain ⟨zs, rfl⟩ := h
  exact (List.getElem?_append_left hj).symm

theorem after_succ (p : P) (n : Nat) : Place.after act X p (n + 1) = (Place.after act X p n).next act X :=
  Function.iterate_succ_apply' ..

theorem next_out (r : Place P β) : r.out <+: (r.next act X).out := by
  unfold Place.next
  split
  · split <;> exact List.prefix_rfl
  · exact List.prefix_append ..
  · exact List.prefix_rfl

theorem after_out (h : n ≤ m) : (Place.after act X p n).out <+: (Place.after act X p m).out := by
  induction m, h using Nat.le_induction with
  | base => exact List.prefix_rfl
  | succ m _ ih =>
    rw [after_succ]
    exact ih.trans (next_out _)

/-- A program that exits stays where it is. -/
theorem after_of_exit (hexit : act (Place.after act X p n).prog = .exit) (h : n ≤ m) :
    Place.after act X p m = Place.after act X p n := by
  induction m, h using Nat.le_induction with
  | base => rfl
  | succ m _ ih => rw [after_succ, ih, Place.next, hexit]

variable (act X)

open Classical in
/-- What the program writes in the end: value number `j`, or `none` behind the last one. -/
noncomputable def meaning (p : P) (j : Nat) : Option β :=
  if h : ∃ n, j < (Place.after act X p n).out.length then (Place.after act X p h.choose).out[j]? else none

variable {act X}

theorem meaning_eq {j : Nat} (h : j < (Place.after act X p n).out.length) :
    meaning act X p j = (Place.after act X p n).out[j]? := by
  have hex : ∃ n, j < (Place.after act X p n).out.length := ⟨n, h⟩
  rw [meaning, dif_pos hex]
  rcases Nat.le_total n hex.choose with hle | hle
  · exact (getElem?_of_initial (after_out hle) h).symm
  · exact getElem?_of_initial (after_out hle) hex.choose_spec

/-- The output of a program that has come to its end is all of its meaning. -/
theorem meaning_of_exit (hexit : act (Place.after act X p n).prog = .exit) (j : Nat) :
    meaning act X p j = (Place.after act X p n).out[j]? := by
  by_cases h : j < (Place.after act X p n).out.length
  · exact meaning_eq h
  · rw [List.getElem?_eq_none (Nat.le_of_not_lt h), meaning, dif_neg]
    rintro ⟨m, hm⟩
    refine h (Nat.lt_of_lt_of_le hm ?_)
    rcases Nat.le_total n m with hle | hle
    · rw [after_of_exit hexit hle]
    · exact (after_out hle).length_le

end Meaning

/-! ### The row -/

section Row

variable (act : P → Act P β)

/-- The input of program number `j`: what the programs before it make of `X`. -/
noncomputable def stream (X : Nat → Option β) (ps : List P) (j : Nat) : Nat → Option β :=
  (ps.take j).foldl (meaning act) X

/-- The programs, `none` when they have exited, and the buffers: buffer `j` is read by program `j` and the next one is
written by it.  The first one is the input, and the last one is the output. -/
structure State (P β : Type*) where
  prog : Nat → Option P
  buf : Nat → List β

/-- A step of program `j` of `k`. -/
inductive Step (k : Nat) (s : State P β) (j : Nat) : State P β → Prop
  | take {p : P} {next : Option β → P} {b : β} {rest : List β} (hs : s.prog j = some p) (hact : act p = .read next)
      (hbuf : s.buf j = b :: rest) :
      Step k s j ⟨Function.update s.prog j (some (next (some b))), Function.update s.buf j rest⟩
  | finish {p : P} {next : Option β → P} (hs : s.prog j = some p) (hact : act p = .read next) (hbuf : s.buf j = [])
      (hend : j = 0 ∨ s.prog (j - 1) = none) : Step k s j ⟨Function.update s.prog j (some (next none)), s.buf⟩
  | put {p q : P} {b : β} (hs : s.prog j = some p) (hact : act p = .write b q) :
      Step k s j ⟨Function.update s.prog j (some q), Function.update s.buf (j + 1) (s.buf (j + 1) ++ [b])⟩
  | kill {p q : P} {b : β} (hs : s.prog j = some p) (hact : act p = .write b q) (hlt : j + 1 < k)
      (hgone : s.prog (j + 1) = none) : Step k s j ⟨Function.update s.prog j none, s.buf⟩
  | exit {p : P} (hs : s.prog j = some p) (hact : act p = .exit) : Step k s j ⟨Function.update s.prog j none, s.buf⟩

/-- Program `j` of `k` need not wait; the buffer `i` between two programs has room for `cap i` values. -/
def Ready (cap : Nat → Nat) (k : Nat) (s : State P β) (j : Nat) : Prop :=
  ∃ p, s.prog j = some p ∧
    match act p with
    | .read _ => s.buf j ≠ [] ∨ j = 0 ∨ s.prog (j - 1) = none
    | .write _ _ => j + 1 = k ∨ (j + 1 < k ∧ s.prog (j + 1) = none) ∨ (s.buf (j + 1)).length < cap (j + 1)
    | .exit => True

def start (ps : List P) (input : List β) : State P β := ⟨fun j => ps[j]?, fun j => if j = 0 then input else []⟩

variable {act} {X : Nat → Option β} {ps : List P} {cap : Nat → Nat} {s t : State P β} {input : List β}

theorem stream_succ {j : Nat} {p : P} (hp : ps[j]? = some p) :
    stream act X ps (j + 1) = meaning act (stream act X ps j) p := by
  rw [stream, List.take_add_one, hp, Option.toList_some, List.foldl_append]
  rfl

variable (act ps input)

/-- The place of program `j` after `n` of its own steps, on its whole input. -/
noncomputable def placeAt (j n : Nat) (p : P) : Place P β := Place.after act (stream act (input[·]?) ps j) p n

/-- What has been written to buffer `j` when program number `i` has taken `c i` steps. -/
noncomputable def sent (c : Nat → Nat) : Nat → List β
  | 0 => input
  | j + 1 =>
    match ps[j]? with
    | some p => (placeAt act ps input j (c j) p).out
    | none => []

/-- Program `j` has taken `c j` steps of its run on its whole input; the buffers hold what has been written and not
read.  A program is gone when it has come to its end or nobody reads what it writes. -/
structure Follows (c : Nat → Nat) (s : State P β) : Prop where
  prog : ∀ j p q, ps[j]? = some p → s.prog j = some q → q = (placeAt act ps input j (c j) p).prog
  gone : ∀ j p, ps[j]? = some p → s.prog j = none →
    act (placeAt act ps input j (c j) p).prog = .exit ∨ (j + 1 < ps.length ∧ s.prog (j + 1) = none)
  outside : ∀ j, ps[j]? = none → s.prog j = none
  pos : ∀ j p, ps[j]? = some p → (placeAt act ps input j (c j) p).pos ≤ (sent act ps input c j).length
  buf : ∀ j p, ps[j]? = some p →
    s.buf j = (sent act ps input c j).drop (placeAt act ps input j (c j) p).pos
  output : s.buf ps.length = sent act ps input c ps.length

variable {act ps input} {c : Nat → Nat} {j : Nat} {p q : P}

theorem placeAt_succ (j n : Nat) (p : P) :
    placeAt act ps input j (n + 1) p = (placeAt act ps input j n p).next act (stream act (input[·]?) ps j) :=
  after_succ ..

theorem sent_succ (c : Nat → Nat) (hp : ps[j]? = some p) :
    sent act ps input c (j + 1) = (placeAt act ps input j (c j) p).out := by
  rw [sent, hp]

theorem sent_update_of_ne {i n : Nat} (hi : i ≠ j + 1) :
    sent act ps input (Function.update c j n) i = sent act ps input c i := by
  cases i with
  | zero => rfl
  | succ i => rw [sent, sent, Function.update_of_ne (by omega)]

/-- What has been written to a buffer is an initial part of the input of its reader. -/
theorem stream_sent {i : Nat} (hj : j ≤ ps.length) (hi : i < (sent act ps input c j).length) :
    stream act (input[·]?) ps j i = (sent act ps input c j)[i]? := by
  cases j with
  | zero => rfl
  | succ j =>
    have hp := List.getElem?_eq_getElem (Nat.lt_of_succ_le hj)
    rw [sent_succ c hp] at hi ⊢
    rw [stream_succ hp]
    exact meaning_eq hi

theorem follows_start : Follows act ps input (fun _ => 0) (start ps input) where
  prog := by
    intro j p q hp hq
    exact (Option.some.inj (hp.symm.trans hq)).symm
  gone := by
    intro j p hp hnone
    cases hp.symm.trans hnone
  outside := fun j hj => hj
  pos := fun _ _ _ => Nat.zero_le _
  buf := by
    intro j p hp
    cases j with
    | zero => rfl
    | succ j =>
      have hj := List.getElem?_eq_getElem (Nat.lt_of_succ_lt (List.getElem?_eq_some_iff.1 hp).1)
      rw [sent_succ _ hj]
      rfl
  output := by
    cases hlen : ps.length with
    | zero => rfl
    | succ n =>
      rw [sent_succ _ (List.getElem?_eq_getElem (by omega))]
      rfl

/-- Program `j` goes on to its next place, where it has read up to `pos` and written `bs` more. -/
theorem Follows.next (h : Follows act ps input c s) (hp : ps[j]? = some p) (hs : s.prog j = some q) {q' : P}
    {pos : Nat} {bs : List β} {buf : Nat → List β}
    (hnext : (placeAt act ps input j (c j) p).next act (stream act (input[·]?) ps j) =
      ⟨q', pos, (placeAt act ps input j (c j) p).out ++ bs⟩)
    (hpos : pos ≤ (sent act ps input c j).length) (hbuf : buf j = (sent act ps input c j).drop pos)
    (hout : buf (j + 1) = s.buf (j + 1) ++ bs) (hother : ∀ i, i ≠ j → i ≠ j + 1 → buf i = s.buf i) :
    Follows act ps input (Function.update c j (c j + 1)) ⟨Function.update s.prog j (some q'), buf⟩ := by
  have hself : placeAt act ps input j (Function.update c j (c j + 1) j) p =
      ⟨q', pos, (placeAt act ps input j (c j) p).out ++ bs⟩ := by
    rw [Function.update_self, placeAt_succ, hnext]
  have hsame : ∀ i, i ≠ j → ∀ p, placeAt act ps input i (Function.update c j (c j + 1) i) p =
      placeAt act ps input i (c i) p := fun i hi p => by rw [Function.update_of_ne hi]
  have hsent : sent act ps input (Function.update c j (c j + 1)) (j + 1) = sent act ps input c (j + 1) ++ bs := by
    rw [sent_succ _ hp, sent_succ _ hp, hself]
  constructor
  · intro i p' q'' hp' hq''
    by_cases hi : i = j
    · subst hi
      obtain rfl : p = p' := Option.some.inj (hp.symm.trans hp')
      simp only [Function.update_self, Option.some.injEq] at hq''
      rw [hself, hq'']
    · simp only [Function.update_of_ne hi] at hq''
      rw [hsame i hi]
      exact h.prog i p' q'' hp' hq''
  · intro i p' hp' hnone
    by_cases hi : i = j
    · subst hi
      simp only [Function.update_self, reduceCtorEq] at hnone
    · simp only [Function.update_of_ne hi] at hnone
      rw [hsame i hi]
      refine (h.gone i p' hp' hnone).imp_right fun ⟨hlt, hreader⟩ => ⟨hlt, ?_⟩
      have hne : i + 1 ≠ j := by
        rintro rfl
        rw [hs] at hreader
        cases hreader
      simpa only [Function.update_of_ne hne] using hreader
  · intro i hi
    have hne : i ≠ j := by
      rintro rfl
      rw [hp] at hi
      cases hi
    simpa only [Function.update_of_ne hne] using h.outside i hi
  · intro i p' hp'
    by_cases hi : i = j
    · subst hi
      obtain rfl : p = p' := Option.some.inj (hp.symm.trans hp')
      rw [hself, sent_update_of_ne (Nat.ne_of_lt (Nat.lt_succ_self i))]
      exact hpos
    · rw [hsame i hi]
      by_cases hi' : i = j + 1
      · rw [hi', hsent, List.length_append, ← hi']
        exact Nat.le_add_right_of_le (hi' ▸ h.pos i p' hp')
      · rw [sent_update_of_ne hi']
        exact h.pos i p' hp'
  · intro i p' hp'
    by_cases hi : i = j
    · subst hi
      obtain rfl : p = p' := Option.some.inj (hp.symm.trans hp')
      rw [hself, sent_update_of_ne (Nat.ne_of_lt (Nat.lt_succ_self i))]
      exact hbuf
    · rw [hsame i hi]
      by_cases hi' : i = j + 1
      · subst hi'
        rw [hsent, List.drop_append_of_le_length (h.pos _ p' hp'), ← h.buf _ p' hp']
        exact hout
      · rw [sent_update_of_ne hi', ← h.buf i p' hp']
        exact hother i hi hi'
  · have hlt := (List.getElem?_eq_some_iff.1 hp).1
    by_cases hlast : ps.length = j + 1
    · rw [hlast, hsent, ← hlast, ← h.output, hlast]
      exact hout
    · rw [sent_update_of_ne hlast, ← h.output]
      exact hother _ (Nat.ne_of_gt hlt) hlast

/-- Program `j` is gone. -/
theorem Follows.leave (h : Follows act ps input c s) (hp : ps[j]? = some p) (hs : s.prog j = some q)
    (hwhy : act (placeAt act ps input j (c j) p).prog = .exit ∨ (j + 1 < ps.length ∧ s.prog (j + 1) = none)) :
    Follows act ps input c { s with prog := Function.update s.prog j none } := by
  refine { h with prog := ?_, gone := ?_, outside := ?_ }
  · intro i p' q' hp' hq'
    have hne : i ≠ j := by
      rintro rfl
      simp only [Function.update_self, reduceCtorEq] at hq'
    simp only [Function.update_of_ne hne] at hq'
    exact h.prog i p' q' hp' hq'
  · intro i p' hp' hnone
    have hreader : ∀ i, s.prog i = none → Function.update s.prog j none i = none := by
      intro i hi
      by_cases hij : i = j
      · rw [hij, Function.update_self]
      · rw [Function.update_of_ne hij, hi]
    by_cases hi : i = j
    · subst hi
      obtain rfl : p = p' := Option.some.inj (hp.symm.trans hp')
      exact hwhy.imp_right fun ⟨hlt, hnext⟩ => ⟨hlt, hreader _ hnext⟩
    · simp only [Function.update_of_ne hi] at hnone
      exact (h.gone i p' hp' hnone).imp_right fun ⟨hlt, hnext⟩ => ⟨hlt, hreader _ hnext⟩
  · intro i hi
    by_cases hij : i = j
    · simp only [hij, Function.update_self]
    · simpa only [Function.update_of_ne hij] using h.outside i hi

/-- A step of program `j` keeps every program on its run: program `j` goes on to its next place, or it is gone. -/
theorem follows_step (h : Follows act ps input c s) (hstep : Step act ps.length s j t) :
    ∃ p, ps[j]? = some p ∧ s.prog j ≠ none ∧ (∀ i, i ≠ j → t.prog i = s.prog i) ∧
      ((t.prog j ≠ none ∧ act (placeAt act ps input j (c j) p).prog ≠ .exit ∧
          Follows act ps input (Function.update c j (c j + 1)) t) ∨
        (t.prog j = none ∧ Follows act ps input c t)) := by
  have hplace : ∀ q, s.prog j = some q → ∃ p, ps[j]? = some p ∧ q = (placeAt act ps input j (c j) p).prog := by
    intro q hq
    obtain ⟨p, hp⟩ : ∃ p, ps[j]? = some p := by
      rw [← Option.ne_none_iff_exists']
      intro hnone
      rw [h.outside j hnone] at hq
      cases hq
    exact ⟨p, hp, h.prog j p q hp hq⟩
  have hother : ∀ (x : Option P) i, i ≠ j → Function.update s.prog j x i = s.prog i :=
    fun x i hi => Function.update_of_ne hi ..
  cases hstep with
  | @take q next b rest hq hact hbuf =>
    obtain ⟨p, hp, rfl⟩ := hplace q hq
    have hlt := (List.getElem?_eq_some_iff.1 hp).1
    have hrest := h.buf j p hp
    rw [hbuf] at hrest
    have hless : (placeAt act ps input j (c j) p).pos < (sent act ps input c j).length := by
      by_contra hge
      rw [List.drop_eq_nil_of_le (Nat.le_of_not_lt hge)] at hrest
      cases hrest
    rw [List.drop_eq_getElem_cons hless, List.cons.injEq] at hrest
    have hvalue := stream_sent (Nat.le_of_lt hlt) hless
    rw [List.getElem?_eq_getElem hless, ← hrest.1] at hvalue
    refine ⟨p, hp, by simp [hq], hother _, .inl ⟨by simp, by simp [hact], ?_⟩⟩
    have hnext : (placeAt act ps input j (c j) p).next act (stream act (input[·]?) ps j) =
        ⟨next (some b), (placeAt act ps input j (c j) p).pos + 1, (placeAt act ps input j (c j) p).out ++ []⟩ := by
      rw [Place.next, hact]
      simp only [hvalue, List.append_nil]
    refine h.next hp hq hnext hless ?_ ?_ ?_
    · rw [Function.update_self, hrest.2]
    · rw [Function.update_of_ne (by omega), List.append_nil]
    · exact fun i hi _ => Function.update_of_ne hi ..
  | @finish q next hq hact hbuf hend =>
    obtain ⟨p, hp, rfl⟩ := hplace q hq
    have hlt := (List.getElem?_eq_some_iff.1 hp).1
    have hrest := h.buf j p hp
    rw [hbuf] at hrest
    have hall : (placeAt act ps input j (c j) p).pos = (sent act ps input c j).length :=
      Nat.le_antisymm (h.pos j p hp) (List.drop_eq_nil_iff.1 hrest.symm)
    -- nothing more comes: the writer has come to its end, for this reader is still there
    have hvalue : stream act (input[·]?) ps j (placeAt act ps input j (c j) p).pos = none := by
      rw [hall]
      cases j with
      | zero => exact List.getElem?_eq_none (Nat.le_refl _)
      | succ j =>
        have hp' := List.getElem?_eq_getElem (Nat.lt_of_succ_lt hlt)
        have hgone := h.gone j _ hp' (hend.resolve_left (by omega))
        have hexit := hgone.resolve_right fun ⟨_, hnone⟩ => by rw [hq] at hnone; cases hnone
        rw [stream_succ hp', meaning_of_exit hexit, sent_succ _ hp']
        exact List.getElem?_eq_none (Nat.le_refl _)
    refine ⟨p, hp, by simp [hq], hother _, .inl ⟨by simp, by simp [hact], ?_⟩⟩
    have hnext : (placeAt act ps input j (c j) p).next act (stream act (input[·]?) ps j) =
        ⟨next none, (placeAt act ps input j (c j) p).pos, (placeAt act ps input j (c j) p).out ++ []⟩ := by
      rw [Place.next, hact]
      simp only [hvalue, List.append_nil]
    exact h.next hp hq hnext (h.pos j p hp) (h.buf j p hp) (List.append_nil _).symm fun _ _ _ => rfl
  | @put q next b hq hact =>
    obtain ⟨p, hp, rfl⟩ := hplace q hq
    refine ⟨p, hp, by simp [hq], hother _, .inl ⟨by simp, by simp [hact], ?_⟩⟩
    have hnext : (placeAt act ps input j (c j) p).next act (stream act (input[·]?) ps j) =
        ⟨next, (placeAt act ps input j (c j) p).pos, (placeAt act ps input j (c j) p).out ++ [b]⟩ := by
      rw [Place.next, hact]
    refine h.next hp hq hnext (h.pos j p hp) ?_ (Function.update_self ..) fun i _ hi => Function.update_of_ne hi ..
    rw [Function.update_of_ne (by omega), h.buf j p hp]
  | @kill q next b hq hact hlt hgone =>
    obtain ⟨p, hp, rfl⟩ := hplace q hq
    exact ⟨p, hp, by simp [hq], hother _, .inr ⟨Function.update_self .., h.leave hp hq (.inr ⟨hlt, hgone⟩)⟩⟩
  | @exit q hq hact =>
    obtain ⟨p, hp, rfl⟩ := hplace q hq
    exact ⟨p, hp, by simp [hq], hother _, .inr ⟨Function.update_self .., h.leave hp hq (.inl hact)⟩⟩

theorem Follows.step (h : ∃ c, Follows act ps input c s) (hstep : Step act ps.length s j t) :
    ∃ c, Follows act ps input c t := by
  obtain ⟨c, h⟩ := h
  obtain ⟨p, -, -, -, ⟨-, -, h'⟩ | ⟨-, h'⟩⟩ := follows_step h hstep
  · exact ⟨_, h'⟩
  · exact ⟨_, h'⟩

/-- A program that nobody keeps from writing is ready, or one before it is. -/
theorem exists_ready_of_room (hcap : ∀ i, 0 < cap i) {k : Nat} (hs : s.prog j = some q)
    (hroom : j + 1 = k ∨ (j + 1 < k ∧ s.prog (j + 1) = none) ∨ s.buf (j + 1) = []) :
    ∃ i ≤ j, Ready act cap k s i := by
  induction j using Nat.strong_induction_on generalizing q with
  | h j ih =>
    cases hact : act q with
    | exit => exact ⟨j, Nat.le_refl _, q, hs, by rw [hact]; trivial⟩
    | write b next =>
      have hfits : s.buf (j + 1) = [] → (s.buf (j + 1)).length < cap (j + 1) := by
        intro hempty
        rw [hempty]
        exact hcap _
      exact ⟨j, Nat.le_refl _, q, hs, by rw [hact]; exact hroom.imp_right (Or.imp_right hfits)⟩
    | read next =>
      by_cases hgo : s.buf j ≠ [] ∨ j = 0 ∨ s.prog (j - 1) = none
      · exact ⟨j, Nat.le_refl _, q, hs, by rw [hact]; exact hgo⟩
      · -- the writer finds the buffer empty
        rw [not_or, not_not, not_or] at hgo
        obtain ⟨hbuf, hpos, hprev⟩ := hgo
        obtain ⟨q', hq'⟩ := Option.ne_none_iff_exists'.1 hprev
        have hempty : s.buf (j - 1 + 1) = [] := by rwa [Nat.sub_add_cancel (by omega)]
        obtain ⟨i, hi, hready⟩ := ih (j - 1) (by omega) hq' (.inr (.inr hempty))
        exact ⟨i, by omega, hready⟩

/-- While one of the programs has not exited, one of them is ready. -/
theorem exists_ready (hcap : ∀ i, 0 < cap i) {k : Nat} (hj : j < k) (hs : s.prog j ≠ none) :
    ∃ i < k, Ready act cap k s i := by
  -- the last one that has not exited
  obtain ⟨j, hj, ⟨q, hq⟩, hlast⟩ : ∃ j < k, (∃ q, s.prog j = some q) ∧
      (j + 1 = k ∨ (j + 1 < k ∧ s.prog (j + 1) = none)) := by
    by_contra hnone
    have hall : ∀ i, j ≤ i → i < k → s.prog i ≠ none := by
      intro i hi
      induction i, hi using Nat.le_induction with
      | base => exact fun _ => hs
      | succ i _ ih =>
        intro hlt hgone
        exact hnone ⟨i, by omega, Option.ne_none_iff_exists'.1 (ih (by omega)), .inr ⟨hlt, hgone⟩⟩
    exact hnone ⟨k - 1, by omega, Option.ne_none_iff_exists'.1 (hall _ (by omega) (by omega)), .inl (by omega)⟩
  obtain ⟨i, hi, hready⟩ := @exists_ready_of_room P β act cap s j q hcap k hq (hlast.imp_right .inl)
  exact ⟨i, by omega, hready⟩

/-! ### The number of steps -/

/-- How many steps program `j` can still take when it has taken `c j` and comes to its end after `N j`. -/
def left (N c : Nat → Nat) (s : State P β) (j : Nat) : Nat := if s.prog j = none then 0 else N j + 1 - c j

variable (act ps input)

/-- The programs, each of which comes to its end after `N j` steps, have `n` steps left, with the exits. -/
def Credit (N : Nat → Nat) (n : Nat) (s : State P β) : Prop :=
  ∃ c, Follows act ps input c s ∧ (∀ j p, ps[j]? = some p → c j ≤ N j) ∧
    n = ((List.range ps.length).map (left N c s)).sum

variable {act ps input}

/-- Every step takes something from the credit. -/
theorem Credit.step {N : Nat → Nat} {n : Nat}
    (hends : ∀ j p, ps[j]? = some p → act (placeAt act ps input j (N j) p).prog = .exit)
    (hs : Credit act ps input N n s) (hstep : Step act ps.length s j t) : ∃ m < n, Credit act ps input N m t := by
  obtain ⟨c, h, hc, rfl⟩ := hs
  obtain ⟨p, hp, halive, hsame, hcase⟩ := follows_step h hstep
  have hj : j ∈ List.range ps.length := List.mem_range.2 (List.getElem?_eq_some_iff.1 hp).1
  have hcj := hc j p hp
  -- only the term of program `j` changes, and it gets smaller
  have hless : ∀ c' : Nat → Nat, (∀ i, i ≠ j → c' i = c i) → left N c' t j < left N c s j →
      ((List.range ps.length).map (left N c' t)).sum < ((List.range ps.length).map (left N c s)).sum := by
    intro c' hc' hlt
    refine List.sum_lt_sum _ _ (fun i _ => ?_) ⟨j, hj, hlt⟩
    by_cases hi : i = j
    · rw [hi]
      exact Nat.le_of_lt hlt
    · rw [left, left, hsame i hi, hc' i hi]
  rcases hcase with ⟨hstays, hact, h'⟩ | ⟨hgone, h'⟩
  · have hmore : c j < N j := by
      refine Nat.lt_of_le_of_ne hcj fun heq => hact ?_
      rw [heq]
      exact hends j p hp
    refine ⟨_, hless _ (fun i hi => Function.update_of_ne hi ..) ?_, _, h', ?_, rfl⟩
    · rw [left, left, if_neg hstays, if_neg halive, Function.update_self]
      omega
    · intro i p' hp'
      by_cases hi : i = j
      · rw [hi, Function.update_self]
        exact hmore
      · rw [Function.update_of_ne hi]
        exact hc i p' hp'
  · refine ⟨_, hless c (fun _ _ => rfl) ?_, c, h', hc, rfl⟩
    rw [left, left, if_pos hgone, if_neg halive]
    omega

end Row

end Dataflow
