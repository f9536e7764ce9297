import Mathlib.Data.List.Perm.Subperm
import UnixTasks.Lib.CChar
import UnixTasks.Lib.Run

/-!
# poll/main.c

The program opens its arguments without blocking, and polls them until each has been printed once: in the first round in
which a file has something to report it is read until a `read` gives nothing.  Meanwhile the writers at the other ends
go on.

One action is one system call of the program or one event at the other end of a file; reading a byte and writing it out
is one action.  Standard output is a terminal: each `printf` ends a line, so that its text is written at once and in
front of what `write` writes afterwards.

* (`Printing`) the output is one block for each file printed so far, and a file's block and what is still unread make up
what was written to it;
* (`printing_next`, `printing_step`) every action keeps this;
* (`printed_blocks`) the output of every run;
* (`finishes_iff_ready`) when the program comes to its end without further input.
-/

namespace UnixTasks.Poll

open ActionSystem

/-! ### The program -/

/-- A file as the program and its writers see it. -/
structure File where
  /-- `open` gave a descriptor. -/
  opened : Bool
  /-- A regular file is always readable, also at its end. -/
  regular : Bool
  /-- Nobody can write any more. -/
  hup : Bool
  pending : List CChar
  /-- Everything that was ever written. -/
  written : List CChar
  deriving DecidableEq, Repr

/-- What `poll` reports: `POLLIN` when it was asked for, `POLLHUP` in any case, nothing for a negative descriptor. -/
def File.revents (f : File) (events : Bool) : Bool :=
  f.opened && ((events && (f.regular || !f.pending.isEmpty)) || f.hup)

/-- A piece of the output. -/
inductive Piece where
  | file (i : Nat)
  | byte (b : CChar)
  | newline
  deriving DecidableEq, Repr

/-- The place of the program: the test of `while`, the call of `poll`, the test of `for`, and the inner `while`. -/
inductive Pc where
  | test
  | poll
  | scan (i : Nat)
  | copy (i : Nat)
  | done
  deriving DecidableEq, Repr

structure State where
  file : Nat → File
  events : Nat → Bool
  revents : Nat → Bool
  flag : Nat
  pc : Pc
  out : List Piece

/-- The program moves, somebody writes to a file, or the writers leave or come back. -/
inductive Action where
  | program
  | write (i : Nat) (bs : List CChar)
  | hangup (i : Nat) (hup : Bool)
  deriving DecidableEq, Repr

/-- One step of the program with `n` files. -/
def State.next (n : Nat) (s : State) : Option State :=
  match s.pc with
  | .test => some { s with pc := if s.flag ≠ n then .poll else .done }
  | .poll => some { s with revents := fun i => (s.file i).revents (s.events i), pc := .scan 0 }
  | .scan i =>
    if i < n then
      if s.events i && s.revents i then some { s with out := s.out ++ [.file i], pc := .copy i }
      else some { s with pc := .scan (i + 1) }
    else some { s with pc := .test }
  | .copy i =>
    match (s.file i).pending with
    | b :: bs => some { s with
        file := Function.update s.file i { s.file i with pending := bs }
        out := s.out ++ [.byte b] }
    | [] => some { s with
        out := s.out ++ [.newline]
        events := Function.update s.events i false
        flag := s.flag + 1
        pc := .scan (i + 1) }
  | .done => none

def State.step (n : Nat) (s : State) : Action → Option State
  | .program => s.next n
  | .write i bs => some { s with file := Function.update s.file i { s.file i with
      pending := (s.file i).pending ++ bs, written := (s.file i).written ++ bs } }
  | .hangup i hup => some { s with file := Function.update s.file i { s.file i with hup := hup } }

/-- The program before its first round; `revents` is memory that nobody has set. -/
def start (file : Nat → File) (revents : Nat → Bool) : State := ⟨file, fun _ => true, revents, 0, .test, []⟩

/-! ### Blocks -/

/-- The output for a file that has been printed. -/
def block (e : Nat × List CChar) : List Piece := .file e.1 :: (e.2.map .byte ++ [.newline])

def blocks (es : List (Nat × List CChar)) : List Piece := es.flatMap block

/-- The file that is being printed. -/
def Pc.current : Pc → Option Nat
  | .copy i => some i
  | _ => none

/-- The output after the last block. -/
def tail (cur : Option Nat) (bs : List CChar) : List Piece :=
  match cur with
  | some i => .file i :: bs.map .byte
  | none => []

/-- What the program has done so far: `es` are the files it has printed, `bs` is what it has read of the current one. -/
structure Printing (n : Nat) (es : List (Nat × List CChar)) (bs : List CChar) (s : State) : Prop where
  out : s.out = blocks es ++ tail s.pc.current bs
  nodup : (es.map Prod.fst).Nodup
  events : ∀ i, s.events i = false ↔ i ∈ es.map Prod.fst
  flag : s.flag = es.length
  printed : ∀ e ∈ es, e.1 < n ∧ (s.file e.1).opened = true ∧ e.2 ++ (s.file e.1).pending = (s.file e.1).written
  current : ∀ i ∈ s.pc.current, i < n ∧ s.events i = true ∧ (s.file i).opened = true ∧
    bs ++ (s.file i).pending = (s.file i).written
  waiting : ∀ i, s.events i = true → s.pc.current ≠ some i → (s.file i).pending = (s.file i).written
  revents : (∃ i, s.pc = .scan i ∨ s.pc = .copy i) → ∀ i, s.revents i = true → (s.file i).opened = true
  done : s.pc = .done → s.flag = n

variable {n : Nat} {es : List (Nat × List CChar)} {bs : List CChar} {s t : State}

private theorem blocks_snoc (es : List (Nat × List CChar)) (e : Nat × List CChar) :
    blocks (es ++ [e]) = blocks es ++ block e := by
  simp [blocks]

private theorem Printing.printed_ne (h : Printing n es bs s) {i : Nat} (hi : s.events i = true) {e : Nat × List CChar}
    (he : e ∈ es) : e.1 ≠ i := by
  rintro rfl
  rw [(h.events e.1).2 (List.mem_map_of_mem he)] at hi
  cases hi

private theorem Printing.keys_subset (h : Printing n es bs s) : es.map Prod.fst ⊆ List.range n := by
  intro i hi
  obtain ⟨e, he, rfl⟩ := List.mem_map.1 hi
  exact List.mem_range.2 (h.printed e he).1

/-- As many files as there are have been printed only when all have. -/
private theorem Printing.keys_perm (h : Printing n es bs s) (hflag : s.flag = n) :
    (es.map Prod.fst).Perm (List.range n) := by
  refine (h.nodup.subperm h.keys_subset).perm_of_length_le ?_
  rw [List.length_range, List.length_map, ← h.flag, hflag]

private theorem Printing.flag_eq (h : Printing n es bs s) (hall : ∀ i < n, i ∈ es.map Prod.fst) : s.flag = n := by
  have hsup : List.range n ⊆ es.map Prod.fst := fun i hi => hall i (List.mem_range.1 hi)
  have hle := (h.nodup.subperm h.keys_subset).length_le
  have hge := (List.nodup_range.subperm hsup).length_le
  rw [List.length_range, List.length_map] at hle hge
  rw [h.flag]
  omega

/-- At the test of `while`. -/
private theorem printing_test (h : Printing n es bs s) (hpc : s.pc = .test) :
    Printing n es bs { s with pc := if s.flag ≠ n then .poll else .done } := by
  have hout := h.out
  have hwaiting := h.waiting
  rw [hpc] at hout hwaiting
  refine { h with out := ?_, current := ?_, waiting := ?_, revents := ?_, done := ?_ }
  · split <;> exact hout
  · split <;> simp [Pc.current]
  · split <;> exact hwaiting
  · split <;> simp
  · split
    · rintro ⟨⟩
    · rename_i hflag
      exact fun _ => not_not.1 hflag

/-- `poll` reports open files only. -/
private theorem printing_poll (h : Printing n es bs s) (hpc : s.pc = .poll) :
    Printing n es bs { s with revents := fun i => (s.file i).revents (s.events i), pc := .scan 0 } := by
  have hout := h.out
  have hwaiting := h.waiting
  rw [hpc] at hout hwaiting
  refine { h with
    out := hout, current := by simp [Pc.current], waiting := hwaiting, revents := ?_, done := by simp }
  intro _ i hi
  simp only [File.revents, Bool.and_eq_true] at hi
  exact hi.1

/-- At the test of `for`: the loop ends, passes over a file, or begins to print one. -/
private theorem printing_scan {i : Nat} (h : Printing n es bs s) (hpc : s.pc = .scan i) (hs : s.next n = some t) :
    ∃ es' bs', Printing n es' bs' t := by
  have hout := h.out
  have hwaiting := h.waiting
  have hrevents := h.revents
  simp only [State.next, hpc] at hs
  rw [hpc] at hout hwaiting hrevents
  have hopened := hrevents ⟨i, .inl rfl⟩
  split at hs
  · rename_i hlt
    split at hs
    · rename_i hev
      cases hs
      rw [Bool.and_eq_true] at hev
      refine ⟨es, [], { h with
        out := ?_, current := ?_, waiting := ?_, revents := fun _ => hopened, done := by simp }⟩
      · simp [hout, tail, Pc.current]
      · rintro _ ⟨⟩
        exact ⟨hlt, hev.1, hopened i hev.2, hwaiting i hev.1 (by simp [Pc.current])⟩
      · exact fun j hj _ => hwaiting j hj (by simp [Pc.current])
    · cases hs
      exact ⟨es, bs, { h with
        out := hout, current := by simp [Pc.current], waiting := hwaiting, revents := fun _ => hopened,
        done := by simp }⟩
  · cases hs
    exact ⟨es, bs, { h with
      out := hout, current := by simp [Pc.current], waiting := hwaiting, revents := by simp, done := by simp }⟩

/-- The inner `while` moves a byte from what is unread to what has been printed of the file. -/
private theorem printing_read {i : Nat} {b : CChar} {rest : List CChar} (h : Printing n es bs s)
    (hpc : s.pc = .copy i) (hpending : (s.file i).pending = b :: rest) :
    Printing n es (bs ++ [b]) { s with
      file := Function.update s.file i { s.file i with pending := rest }
      out := s.out ++ [.byte b] } := by
  have hout := h.out
  have hwaiting := h.waiting
  have hrevents := h.revents
  have hcurrent := h.current
  rw [hpc] at hout hwaiting hrevents hcurrent
  obtain ⟨hlt, hev, hopen, hread⟩ := hcurrent i rfl
  have hother : ∀ j, j ≠ i → Function.update s.file i { s.file i with pending := rest } j = s.file j :=
    fun j hj => Function.update_of_ne hj ..
  refine { h with out := ?_, printed := ?_, current := ?_, waiting := ?_, revents := ?_, done := by simp [hpc] }
  · simp [hout, hpc, tail, Pc.current]
  · intro e he
    simp only [hother _ (h.printed_ne hev he)]
    exact h.printed e he
  · rw [hpc]
    rintro _ ⟨⟩
    rw [hpending] at hread
    simp only [Function.update_self]
    exact ⟨hlt, hev, hopen, by rw [← hread]; simp⟩
  · intro j hj hne
    rw [hpc] at hne
    have hji : j ≠ i := fun e => hne (by rw [e]; rfl)
    simp only [hother j hji]
    exact hwaiting j hj hne
  · intro _ j hj
    have hjopen := hrevents ⟨i, .inr rfl⟩ j hj
    by_cases hji : j = i
    · simpa [hji] using hopen
    · simpa only [hother j hji] using hjopen

/-- The inner `while` ends: the file gets its block. -/
private theorem printing_end {i : Nat} (h : Printing n es bs s) (hpc : s.pc = .copy i)
    (hpending : (s.file i).pending = []) :
    Printing n (es ++ [(i, bs)]) [] { s with
      out := s.out ++ [.newline]
      events := Function.update s.events i false
      flag := s.flag + 1
      pc := .scan (i + 1) } := by
  have hout := h.out
  have hwaiting := h.waiting
  have hrevents := h.revents
  have hcurrent := h.current
  rw [hpc] at hout hwaiting hrevents hcurrent
  obtain ⟨hlt, hev, hopen, hread⟩ := hcurrent i rfl
  have hnew : i ∉ es.map Prod.fst := by
    rw [← h.events i, hev]
    decide
  rw [hpending, List.append_nil] at hread
  refine { h with
    out := ?_, nodup := ?_, events := ?_, flag := ?_, printed := ?_, current := by simp [Pc.current]
    waiting := ?_, revents := fun _ => hrevents ⟨i, .inr rfl⟩, done := by simp }
  · simp [hout, blocks_snoc, block, tail, Pc.current]
  · rw [List.map_append, List.nodup_append]
    refine ⟨h.nodup, by simp, ?_⟩
    intro a ha b hb
    rw [List.map_singleton, List.mem_singleton] at hb
    rintro rfl
    rw [hb] at ha
    exact hnew ha
  · intro j
    by_cases hji : j = i
    · simp [hji]
    · simp only [Function.update_of_ne hji, List.map_append, List.mem_append, List.map_singleton,
        List.mem_singleton, hji, or_false]
      exact h.events j
  · simp [h.flag]
  · intro e he
    rcases List.mem_append.1 he with he | he
    · exact h.printed e he
    · rw [List.mem_singleton.1 he]
      exact ⟨hlt, hopen, by rw [hpending, List.append_nil, hread]⟩
  · intro j hj _
    have hji : j ≠ i := by
      rintro rfl
      simp at hj
    simp only [Function.update_of_ne hji] at hj
    exact hwaiting j hj (by simp [Pc.current, Ne.symm hji])

/-- Every step of the program. -/
theorem printing_next (h : Printing n es bs s) (hs : s.next n = some t) : ∃ es' bs', Printing n es' bs' t := by
  cases hpc : s.pc with
  | test =>
    simp only [State.next, hpc, Option.some.injEq] at hs
    exact ⟨es, bs, hs ▸ printing_test h hpc⟩
  | poll =>
    simp only [State.next, hpc, Option.some.injEq] at hs
    exact ⟨es, bs, hs ▸ printing_poll h hpc⟩
  | scan i => exact printing_scan h hpc hs
  | copy i =>
    simp only [State.next, hpc] at hs
    split at hs
    · rename_i b rest hpending
      cases hs
      exact ⟨es, bs ++ [b], hpc ▸ printing_read h hpc hpending⟩
    · rename_i hpending
      cases hs
      exact ⟨es ++ [(i, bs)], [], printing_end h hpc hpending⟩
  | done => simp [State.next, hpc] at hs

/-- What happens at the other ends. -/
private theorem printing_event {i : Nat} {f : File} (more : List CChar) (h : Printing n es bs s)
    (hopen : f.opened = (s.file i).opened) (hpending : f.pending = (s.file i).pending ++ more)
    (hwritten : f.written = (s.file i).written ++ more) :
    Printing n es bs { s with file := Function.update s.file i f } := by
  have hkeep : ∀ j read, read ++ (s.file j).pending = (s.file j).written →
      read ++ (Function.update s.file i f j).pending = (Function.update s.file i f j).written := by
    intro j read hread
    by_cases hji : j = i
    · subst hji
      rw [Function.update_self, hpending, hwritten, ← hread, List.append_assoc]
    · rwa [Function.update_of_ne hji]
  have hopened : ∀ j, (Function.update s.file i f j).opened = (s.file j).opened := by
    intro j
    by_cases hji : j = i
    · rw [hji, Function.update_self, hopen]
    · rw [Function.update_of_ne hji]
  exact { h with
    printed := fun e he => by
      obtain ⟨hlt, ho, hread⟩ := h.printed e he
      exact ⟨hlt, by rw [← ho]; exact hopened _, hkeep _ _ hread⟩
    current := fun j hj => by
      obtain ⟨hlt, hev, ho, hread⟩ := h.current j hj
      exact ⟨hlt, hev, by rw [← ho]; exact hopened _, hkeep _ _ hread⟩
    waiting := fun j hj hne => hkeep j [] (h.waiting j hj hne)
    revents := fun hpc j hj => by
      rw [← h.revents hpc j hj]
      exact hopened j }

/-- Some blocks explain the output. -/
def Explained (n : Nat) (s : State) : Prop := ∃ es bs, Printing n es bs s

theorem printing_step (s : State) (a : Action) (t : State) (h : Explained n s) (hs : s.step n a = some t) :
    Explained n t := by
  obtain ⟨es, bs, h⟩ := h
  cases a with
  | program => exact printing_next h hs
  | write i more =>
    cases hs
    exact ⟨es, bs, printing_event more h rfl rfl rfl⟩
  | hangup i hup =>
    cases hs
    exact ⟨es, bs, printing_event [] h rfl (List.append_nil _).symm (List.append_nil _).symm⟩

private theorem printing_start {file : Nat → File} (hfile : ∀ i, (file i).pending = (file i).written)
    (revents : Nat → Bool) :
    Explained n (start file revents) :=
  ⟨[], [], {
    out := rfl
    nodup := List.nodup_nil
    events := by simp [start]
    flag := rfl
    printed := by simp
    current := by simp [start, Pc.current]
    waiting := fun i _ _ => hfile i
    revents := by simp [start]
    done := by simp [start] }⟩

/-- The output of every run from files that nothing was read from: it is made of a block for each file printed so far,
each file once, and perhaps the file that is being printed.  The block of a file and what is unread are what was written
to it; what comes later is not read, and at the end every file has its block. -/
theorem printed_blocks {file : Nat → File} (hfile : ∀ i, (file i).pending = (file i).written) {revents : Nat → Bool}
    {as : List Action} (hrun : run (State.step n) (start file revents) as = some t) :
    ∃ es bs, t.out = blocks es ++ tail t.pc.current bs ∧ (es.map Prod.fst).Nodup ∧ t.flag = es.length ∧
      (∀ e ∈ es, e.1 < n ∧ (t.file e.1).opened = true ∧ e.2 ++ (t.file e.1).pending = (t.file e.1).written) ∧
      (∀ i ∈ t.pc.current, i < n ∧ i ∉ es.map Prod.fst ∧ bs ++ (t.file i).pending = (t.file i).written) ∧
      (t.pc = .done → (es.map Prod.fst).Perm (List.range n)) := by
  obtain ⟨es, bs, h⟩ := run_invariant printing_step (printing_start hfile revents) hrun
  refine ⟨es, bs, h.out, h.nodup, h.flag, h.printed, ?_, ?_⟩
  · intro i hi
    obtain ⟨hlt, hev, -, hread⟩ := h.current i hi
    refine ⟨hlt, ?_, hread⟩
    rw [← h.events i, hev]
    decide
  · exact fun hdone => h.keys_perm (h.done hdone)

theorem printed_blocks_two : ∃ t es bs,
    run (State.step 2) (start (fun _ => ⟨true, false, false, [], []⟩) fun _ => true)
      ([.write 1 [65]] ++ List.replicate 6 .program ++ [.write 1 [66]]) = some t ∧
    t.out = blocks es ++ tail t.pc.current bs ∧ (t.pc = .done → (es.map Prod.fst).Perm (List.range 2)) := by
  obtain ⟨t, ht⟩ : ∃ t, run (State.step 2) (start (fun _ => ⟨true, false, false, [], []⟩) fun _ => true)
      ([.write 1 [65]] ++ List.replicate 6 .program ++ [.write 1 [66]]) = some t := ⟨_, rfl⟩
  obtain ⟨es, bs, hout, -, -, -, -, hdone⟩ := printed_blocks (fun _ => rfl) ht
  exact ⟨t, es, bs, ht, hout, hdone⟩

/-! ### The end -/

/-- The program comes from `s` to `t` on its own. -/
def Goes (n : Nat) (s t : State) : Prop := ∃ k, run (State.step n) s (List.replicate k .program) = some t

theorem Goes.single (hs : s.next n = some t) : Goes n s t := ⟨1, run_cons_eq_some.2 ⟨t, hs, rfl⟩⟩

theorem Goes.step {u : State} (hs : s.next n = some t) (h : Goes n t u) : Goes n s u := by
  obtain ⟨k, hk⟩ := h
  exact ⟨k + 1, run_cons_eq_some.2 ⟨t, hs, hk⟩⟩

theorem Goes.trans {u : State} (hst : Goes n s t) (htu : Goes n t u) : Goes n s u := by
  obtain ⟨k, hk⟩ := hst
  obtain ⟨l, hl⟩ := htu
  exact ⟨k + l, by rw [List.replicate_add, run_append, hk]; exact hl⟩

/-- The inner `while` reads what there is, and the file counts as printed. -/
private theorem goes_copy {i : Nat} (hpc : s.pc = .copy i) : ∃ t, Goes n s t ∧ t.pc = .scan (i + 1) ∧
    t.events = Function.update s.events i false ∧ t.revents = s.revents := by
  induction hp : (s.file i).pending generalizing s with
  | nil =>
    exact ⟨{ s with
        out := s.out ++ [.newline]
        events := Function.update s.events i false
        flag := s.flag + 1
        pc := .scan (i + 1) }, .single (by simp only [State.next, hpc, hp]), rfl, rfl, rfl⟩
  | cons b bs ih =>
    obtain ⟨t, ht, h⟩ := ih (s := { s with
      file := Function.update s.file i { s.file i with pending := bs }
      out := s.out ++ [.byte b] }) hpc (by simp)
    exact ⟨t, ht.step (by simp only [State.next, hpc, hp]), h⟩

/-- The `for` loop prints every file that is left, when each of them has been reported. -/
private theorem goes_scan {i : Nat} (hpc : s.pc = .scan i) (hin : i ≤ n) (hbelow : ∀ j < i, s.events j = false)
    (hready : ∀ j < n, s.events j = true → s.revents j = true) :
    ∃ t, Goes n s t ∧ t.pc = .test ∧ ∀ j < n, t.events j = false := by
  induction hk : n - i generalizing s i with
  | zero =>
    obtain rfl : i = n := by omega
    exact ⟨{ s with pc := .test }, .single (by simp [State.next, hpc]), rfl, hbelow⟩
  | succ k ih =>
    have hi : i < n := by omega
    cases hev : s.events i with
    | true =>
      have hcopy : s.next n = some { s with out := s.out ++ [.file i], pc := .copy i } := by
        simp [State.next, hpc, hi, hev, hready i hi hev]
      obtain ⟨u, hu, hupc, huev, hurev⟩ := goes_copy (n := n) (s := { s with
        out := s.out ++ [.file i], pc := .copy i }) rfl
      have hbelow' : ∀ j < i + 1, u.events j = false := by
        intro j hj
        rw [huev]
        rcases Nat.lt_succ_iff_lt_or_eq.1 hj with hj | rfl
        · rw [Function.update_of_ne (by omega)]
          exact hbelow j hj
        · exact Function.update_self ..
      have hready' : ∀ j < n, u.events j = true → u.revents j = true := by
        intro j hj hevj
        rw [hurev]
        refine hready j hj ?_
        by_cases hji : j = i
        · rw [hji, hev]
        · rwa [huev, Function.update_of_ne hji] at hevj
      obtain ⟨t, ht, hpct, hevt⟩ := ih hupc hi hbelow' hready' (by omega)
      exact ⟨t, (hu.step hcopy).trans ht, hpct, hevt⟩
    | false =>
      have hnext : s.next n = some { s with pc := .scan (i + 1) } := by simp [State.next, hpc, hi, hev]
      have hbelow' : ∀ j < i + 1, s.events j = false := by
        intro j hj
        rcases Nat.lt_succ_iff_lt_or_eq.1 hj with hj | rfl
        · exact hbelow j hj
        · exact hev
      obtain ⟨t, ht, h⟩ := ih (s := { s with pc := .scan (i + 1) }) rfl hi hbelow' hready (by omega)
      exact ⟨t, ht.step hnext, h⟩

/-- File `i` has nothing to report, and `poll` has not said that it had. -/
structure Stuck (i : Nat) (s : State) : Prop where
  unprinted : s.events i = true
  silent : (s.file i).revents true = false
  revents : ∀ j, s.pc = .scan j → s.revents i = false
  revents_copy : ∀ j, s.pc = .copy j → s.revents i = false ∧ j ≠ i

private theorem stuck_next {i : Nat} (h : Stuck i s) (hs : s.next n = some t) : Stuck i t := by
  cases hpc : s.pc with
  | test =>
    simp only [State.next, hpc, Option.some.injEq] at hs
    subst hs
    exact ⟨h.unprinted, h.silent, by split <;> simp, by split <;> simp⟩
  | poll =>
    simp only [State.next, hpc, Option.some.injEq] at hs
    subst hs
    refine ⟨h.unprinted, h.silent, fun _ _ => ?_, by simp⟩
    simp only [h.unprinted]
    exact h.silent
  | scan j =>
    have hrev := h.revents j hpc
    simp only [State.next, hpc] at hs
    split at hs
    · split at hs
      · rename_i hev
        cases hs
        refine ⟨h.unprinted, h.silent, by simp, ?_⟩
        rintro k ⟨⟩
        refine ⟨hrev, ?_⟩
        rintro rfl
        rw [hrev, Bool.and_false] at hev
        cases hev
      · cases hs
        exact ⟨h.unprinted, h.silent, fun _ _ => hrev, by simp⟩
    · cases hs
      exact ⟨h.unprinted, h.silent, by simp, by simp⟩
  | copy j =>
    obtain ⟨hrev, hne⟩ := h.revents_copy j hpc
    simp only [State.next, hpc] at hs
    split at hs
    · cases hs
      refine ⟨h.unprinted, ?_, by simp, fun k hk => ⟨hrev, ?_⟩⟩
      · simp only [Function.update_of_ne (Ne.symm hne)]
        exact h.silent
      · cases hk
        exact hne
    · cases hs
      refine ⟨?_, h.silent, fun _ _ => hrev, by simp⟩
      simp only [Function.update_of_ne (Ne.symm hne)]
      exact h.unprinted
  | done => simp [State.next, hpc] at hs

private theorem stuck_goes {i : Nat} (h : Stuck i s) (ht : Goes n s t) : Stuck i t := by
  obtain ⟨k, hk⟩ := ht
  induction k generalizing s with
  | zero =>
    cases hk
    exact h
  | succ k ih =>
    obtain ⟨u, hu, hk⟩ := run_cons_eq_some.1 hk
    exact ih (stuck_next h hu) hk

/-- From the test of `while` on, in any state of any run, the program comes to its end without another event at a file
if and only if every file that it has not printed has something to report. -/
theorem finishes_iff_ready {file : Nat → File} (hfile : ∀ i, (file i).pending = (file i).written)
    {revents : Nat → Bool} {as : List Action} (hrun : run (State.step n) (start file revents) as = some s)
    (hpc : s.pc = .test) :
    (∃ t, Goes n s t ∧ t.pc = .done) ↔ ∀ i < n, s.events i = true → (s.file i).revents true = true := by
  have hexplained : Explained n s := run_invariant printing_step (printing_start hfile revents) hrun
  have hgoes : ∀ t, Goes n s t → Explained n t := by
    rintro t ⟨k, hk⟩
    exact run_invariant printing_step hexplained hk
  constructor
  · rintro ⟨t, ht, hdone⟩ i hi hev
    by_contra hsilent
    have hstuck : Stuck i s := ⟨hev, by simpa using hsilent, by simp [hpc], by simp [hpc]⟩
    obtain ⟨es, bs, h⟩ := hgoes t ht
    have hmem : i ∈ es.map Prod.fst := (h.keys_perm (h.done hdone)).mem_iff.2 (List.mem_range.2 hi)
    have hprinted : t.events i = false := (h.events i).2 hmem
    rw [(stuck_goes hstuck ht).unprinted] at hprinted
    cases hprinted
  · intro hready
    by_cases hflag : s.flag = n
    · exact ⟨{ s with pc := .done }, .single (by simp [State.next, hpc, hflag]), rfl⟩
    · have hpoll : Goes n s { s with revents := fun i => (s.file i).revents (s.events i), pc := .scan 0 } :=
        ⟨2, by simp [List.replicate, State.step, State.next, hpc, hflag]⟩
      obtain ⟨t, ht, htpc, htev⟩ := goes_scan (n := n)
        (s := { s with revents := fun i => (s.file i).revents (s.events i), pc := .scan 0 }) rfl (Nat.zero_le n)
        (by simp) (fun i hi hev => by simpa only [show s.events i = true from hev] using hready i hi hev)
      have hst := hpoll.trans ht
      obtain ⟨es, bs, h⟩ := hgoes t hst
      have hall : t.flag = n := h.flag_eq fun i hi => (h.events i).1 (htev i hi)
      exact ⟨{ t with pc := .done }, hst.trans (.single (by simp [State.next, htpc, hall])), rfl⟩

theorem finishes_iff_ready_two :
    ¬ ∃ t, Goes 2 (start (fun _ => ⟨true, false, false, [], []⟩) fun _ => true) t ∧ t.pc = .done := by
  have hrun : run (State.step 2) (start (fun _ => ⟨true, false, false, [], []⟩) fun _ => true) [] = some _ := rfl
  intro h
  have hready := (finishes_iff_ready (fun _ => rfl) hrun rfl).1 h 0 (by decide) rfl
  exact absurd hready (by decide)

end UnixTasks.Poll
