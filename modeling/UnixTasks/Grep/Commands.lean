import UnixTasks.Grep.Pipeline
import UnixTasks.Lib.Dataflow
import UnixTasks.Lib.Run

/-!
# The commands at work

The parent forks its children one after the other, closes the pipes and waits; a child closes the pipes, is replaced by
its command and runs.  All of them take their steps in any order.  A read finds the end of a pipe when nobody can write
to it any more, and a write to a pipe that nobody can read any more kills the writer, so it matters who still holds an
end.

The commands are arguments: `exec` is the program that a child becomes, and `act` what a program does next with its
descriptors 0 and 1.  Where `execvp` fails the child becomes a program that exits.  A pipe `p` holds up to `cap p`
characters.

* (`World.step`) a step of the parent or of a child;
* (`Wired`) whose descriptors hold which end of a pipe;
* (`World.row`) the children as a row of sequential programs;
* (`row_childStep`) a step of a child is a step of the row, whoever still holds an end.
-/

namespace UnixTasks.Grep

open ActionSystem CString CChar Tokens Dataflow

variable {P : Type}

/-! ### The system -/

/-- Where a child is: it has not been forked, it has not closed the pipes yet, it runs its command, or it is gone. -/
inductive Stage (P : Type) where
  | unborn
  | forked
  | running (p : P)
  | gone

/-- Where the parent is: so many children have been forked, the pipes are closed and so many calls of `wait` have
returned, or it has returned. -/
inductive ParentPc where
  | forking (j : Nat)
  | waiting (i : Nat)
  | done
  deriving DecidableEq

/-- What is in the pipes, what is left to read of the files, what has been written to them, and the processes. -/
structure World (P : Type) where
  pipe : Nat → List CChar
  file : Nat → List CChar
  written : Nat → List CChar
  child : Nat → Stage P
  parent : ParentPc

inductive Move where
  | parent
  | child (j : Nat)
  deriving DecidableEq

/-- One of the descriptors is open for `o`. -/
def Fds.has (t : Fds) (o : Obj) : Bool := (List.range t.size).any fun fd => t.get fd = some o

def Stage.isGone : Stage P → Bool
  | .gone => true
  | _ => false

/-- 1 until the command of the child has started. -/
def Stage.pending : Stage P → Nat
  | .unborn | .forked => 1
  | .running _ | .gone => 0

/-- The process holds `o`; before it has closed the pipes it holds all their ends. -/
def Stage.holds (c : Child) (o : Obj) : Stage P → Bool
  | .unborn | .gone => false
  | .forked => o.isPipe || c.fds.has o
  | .running _ => c.fds.has o

def ParentPc.holds (parent : Fds) (o : Obj) : ParentPc → Bool
  | .forking _ => o.isPipe || parent.has o
  | .waiting _ => parent.has o
  | .done => false

section Step

variable (exec : List (List CChar) → P) (act : P → Act P CChar) (cap : Nat → Nat) (parent : Fds)
  (children : List Child) (n : Nat)

/-- Some process holds `o`. -/
def World.held (w : World P) (o : Obj) : Bool :=
  w.parent.holds parent o || children.zipIdx.any fun (c, j) => (w.child j).holds c o

/-- How many children are gone. -/
def World.exited (w : World P) : Nat := (List.range children.length).countP fun j => (w.child j).isGone

def World.become (w : World P) (j : Nat) (s : Stage P) : World P := { w with child := Function.update w.child j s }

/-- A step of the parent; `wait(0)` returns at once when it has been told of every child. -/
def World.parentStep (w : World P) : Option (World P) :=
  match w.parent with
  | .forking j =>
    if j < children.length then some { w.become j .forked with parent := .forking (j + 1) }
    else some { w with parent := .waiting 0 }
  | .waiting i =>
    if i < n + 1 then
      if i < w.exited children ∨ children.length ≤ i then some { w with parent := .waiting (i + 1) } else none
    else some { w with parent := .done }
  | .done => none

/-- A command reads a character from its descriptor 0; a read that fails is as if there were none. -/
def World.read (w : World P) (c : Child) (j : Nat) (next : Option CChar → P) : Option (World P) :=
  match c.fds.get 0 with
  | some (.file f) =>
    match w.file f with
    | b :: rest => some { w.become j (.running (next (some b))) with file := Function.update w.file f rest }
    | [] => some (w.become j (.running (next none)))
  | some (.rd r) =>
    match w.pipe r with
    | b :: rest => some { w.become j (.running (next (some b))) with pipe := Function.update w.pipe r rest }
    | [] => if w.held parent children (.wr r) then none else some (w.become j (.running (next none)))
  | _ => some (w.become j (.running (next none)))

/-- A command writes a character to its descriptor 1. -/
def World.write (w : World P) (c : Child) (j : Nat) (b : CChar) (q : P) : Option (World P) :=
  match c.fds.get 1 with
  | some (.file f) =>
    some { w.become j (.running q) with written := Function.update w.written f (w.written f ++ [b]) }
  | some (.wr r) =>
    if w.held parent children (.rd r) then
      if (w.pipe r).length < cap r then
        some { w.become j (.running q) with pipe := Function.update w.pipe r (w.pipe r ++ [b]) }
      else none
    else some (w.become j .gone)
  | _ => some (w.become j (.running q))

def World.childStep (w : World P) (c : Child) (j : Nat) : Option (World P) :=
  match w.child j with
  | .forked => some (w.become j (.running (exec c.comms)))
  | .running p =>
    match act p with
    | .read next => w.read parent children c j next
    | .write b q => w.write cap parent children c j b q
    | .exit => some (w.become j .gone)
  | .unborn | .gone => none

def World.step (w : World P) : Move → Option (World P)
  | .parent => w.parentStep children n
  | .child j => children[j]?.bind fun c => w.childStep exec act cap parent children c j

/-- The pipes are empty, and no child has been forked. -/
def World.start (file : Nat → List CChar) : World P := ⟨fun _ => [], file, fun _ => [], fun _ => .unborn, .forking 0⟩

end Step

/-! ### Who holds the ends -/

theorem Fds.has_iff {t : Fds} {o : Obj} : t.has o = true ↔ ∃ fd, t.get fd = some o := by
  simp only [Fds.has, List.any_eq_true, List.mem_range, decide_eq_true_eq]
  constructor
  · rintro ⟨fd, -, h⟩
    exact ⟨fd, h⟩
  · rintro ⟨fd, h⟩
    refine ⟨fd, ?_, h⟩
    by_contra hge
    rw [t.free fd (Nat.le_of_not_lt hge)] at h
    cases h

theorem held_iff {w : World P} {parent : Fds} {children : List Child} {o : Obj} :
    w.held parent children o = true ↔
      w.parent.holds parent o = true ∨ ∃ j c, children[j]? = some c ∧ (w.child j).holds c o = true := by
  simp only [World.held, Bool.or_eq_true, List.any_eq_true]
  refine or_congr_right ?_
  constructor
  · rintro ⟨⟨c, j⟩, hmem, h⟩
    exact ⟨j, c, List.mk_mem_zipIdx_iff_getElem?.1 hmem, h⟩
  · rintro ⟨j, c, hc, h⟩
    exact ⟨(c, j), List.mk_mem_zipIdx_iff_getElem?.2 hc, h⟩

/-- The children are in a row from file `m` to file `m'`, and no other descriptor is open for a pipe. -/
structure Wired (m m' : Nat) (parent : Fds) (children : List Child) : Prop where
  input : ∀ c, children[0]? = some c → c.fds.get 0 = some (.file m)
  rd : ∀ j c, children[j + 1]? = some c → c.fds.get 0 = some (.rd j)
  wr : ∀ j c, children[j]? = some c → j + 1 < children.length → c.fds.get 1 = some (.wr j)
  output : ∀ j c, children[j]? = some c → j + 1 = children.length → c.fds.get 1 = some (.file m')
  parent : ∀ fd o, parent.get fd = some o → o.isPipe = false
  closed : ∀ j c fd o, children[j]? = some c → c.fds.get fd = some o → o.isPipe = true →
    (0 < j ∧ o = .rd (j - 1)) ∨ (j + 1 < children.length ∧ o = .wr j)

theorem Linear.wired {t : Start} {k m m' : Nat} {parent : Fds} {children : List Child}
    (h : Linear t.fds k parent children) (hin : t.fds.get 0 = some (.file m)) (hout : t.fds.get 1 = some (.file m')) :
    Wired m m' parent children where
  input := by
    intro c hc
    rw [h.input c (by rw [List.head?_eq_getElem?]; exact hc), hin]
  rd := by
    intro j c hc
    have hlt := (List.getElem?_eq_some_iff.1 hc).1
    exact (h.linked j _ c (List.getElem?_eq_getElem (by omega)) hc).2
  wr := by
    intro j c hc hlt
    exact (h.linked j c _ hc (List.getElem?_eq_getElem hlt)).1
  output := by
    intro j c hc hlast
    rw [h.output c, hout]
    rw [List.getLast?_eq_getElem?, ← hlast]
    exact hc
  parent := h.parent_closed
  closed := by
    intro j c fd o hc ho hpipe
    rw [h.length]
    exact (h.closed j c fd o hc ho hpipe).imp (fun h => h.2) fun h => h.2

/-! ### The row of programs -/

/-- The program of a child, `none` when it is gone. -/
def Stage.prog (exec : List (List CChar) → P) (c : Child) : Stage P → Option P
  | .unborn | .forked => some (exec c.comms)
  | .running p => some p
  | .gone => none

/-- The children as a row of programs from file `m` to file `m'`. -/
def World.row (exec : List (List CChar) → P) (m m' : Nat) (children : List Child) (w : World P) :
    Dataflow.State P CChar where
  prog j := children[j]?.bind fun c => (w.child j).prog exec c
  buf j := if j = 0 then w.file m else if j = children.length then w.written m' else w.pipe (j - 1)

/-- How the run has begun: children that have not been forked come after the ones that have, and the parent has been
told of no more exits than there were. -/
structure Phase (children : List Child) (n : Nat) (w : World P) : Prop where
  unborn : ∀ j < children.length, w.child j = .unborn → ∃ i ≤ j, w.parent = .forking i
  forking : ∀ i j, w.parent = .forking i → i ≤ j → w.child j = .unborn
  waiting : ∀ i, w.parent = .waiting i → i ≤ n + 1 ∧ i ≤ w.exited children
  done : w.parent = .done → ∀ j < children.length, w.child j = .gone

section Row

variable {exec : List (List CChar) → P} {act : P → Act P CChar} {cap : Nat → Nat} {m m' n : Nat} {parent : Fds}
  {children : List Child} {w w' : World P} {c : Child} {j : Nat}

theorem row_prog (hc : children[j]? = some c) : (w.row exec m m' children).prog j = (w.child j).prog exec c := by
  simp only [World.row, hc, Option.bind_some]

theorem row_start (file : Nat → List CChar) :
    (World.start file : World P).row exec m m' children = start (children.map fun c => exec c.comms) (file m) := by
  refine congrArg₂ State.mk (funext fun j => ?_) (funext fun j => ?_)
  · rw [List.getElem?_map]
    cases children[j]? <;> rfl
  · by_cases hj : j = 0
    · simp only [hj, if_true]
      rfl
    · simp only [hj, if_false]
      exact ite_self _

/-- A child comes to another stage. -/
theorem row_become (hc : children[j]? = some c) (s : Stage P) :
    (w.become j s).row exec m m' children =
      ⟨Function.update (w.row exec m m' children).prog j (s.prog exec c), (w.row exec m m' children).buf⟩ := by
  refine congrArg₂ State.mk (funext fun i => ?_) rfl
  by_cases hi : i = j
  · subst hi
    simp only [World.become, hc, Option.bind_some, Function.update_self]
  · simp only [World.become, Function.update_of_ne hi, World.row]

private theorem row_file (hc : children[j]? = some c) (s : Stage P) (rest : List CChar) :
    ({ w.become j s with file := Function.update w.file m rest } : World P).row exec m m' children =
      ⟨Function.update (w.row exec m m' children).prog j (s.prog exec c),
        Function.update (w.row exec m m' children).buf 0 rest⟩ := by
  refine congrArg₂ State.mk (congrArg State.prog (row_become hc s)) (funext fun i => ?_)
  by_cases hi : i = 0
  · subst hi
    simp
  · simp [hi, World.row, World.become]

private theorem row_pipe (hc : children[j]? = some c) (s : Stage P) {i : Nat} (hi : 0 < i) (hlt : i < children.length)
    (cs : List CChar) :
    ({ w.become j s with pipe := Function.update w.pipe (i - 1) cs } : World P).row exec m m' children =
      ⟨Function.update (w.row exec m m' children).prog j (s.prog exec c),
        Function.update (w.row exec m m' children).buf i cs⟩ := by
  refine congrArg₂ State.mk (congrArg State.prog (row_become hc s)) (funext fun i' => ?_)
  by_cases hii : i' = i
  · subst hii
    simp [Nat.ne_of_gt hi, Nat.ne_of_lt hlt]
  · rw [Function.update_of_ne hii]
    by_cases h0 : i' = 0
    · simp [h0, World.row, World.become]
    · have hne : i' - 1 ≠ i - 1 := by omega
      simp [h0, World.row, World.become, Function.update_of_ne hne]

private theorem row_written (hc : children[j]? = some c) (s : Stage P) (cs : List CChar) :
    ({ w.become j s with written := Function.update w.written m' cs } : World P).row exec m m' children =
      ⟨Function.update (w.row exec m m' children).prog j (s.prog exec c),
        Function.update (w.row exec m m' children).buf children.length cs⟩ := by
  have hlt := (List.getElem?_eq_some_iff.1 hc).1
  refine congrArg₂ State.mk (congrArg State.prog (row_become hc s)) (funext fun i => ?_)
  by_cases hi : i = children.length
  · subst hi
    simp [Nat.ne_of_gt (Nat.zero_lt_of_lt hlt)]
  · rw [Function.update_of_ne hi]
    simp [hi, World.row, World.become]

private theorem row_parent (pc : ParentPc) :
    ({ w with parent := pc } : World P).row exec m m' children = w.row exec m m' children := rfl

theorem buf_pipe (hj : 0 < j) (hlt : j < children.length) : (w.row exec m m' children).buf j = w.pipe (j - 1) := by
  simp [World.row, Nat.ne_of_gt hj, Nat.ne_of_lt hlt]

theorem buf_length (hpos : 0 < children.length) : (w.row exec m m' children).buf children.length = w.written m' := by
  simp [World.row, Nat.ne_of_gt hpos]

/-- A child whose descriptor is open for the end of a pipe that nobody holds is gone. -/
private theorem gone_of_not_held (hphase : Phase children n w) {o : Obj} {fd : Nat} (hc : children[j]? = some c)
    (ho : c.fds.get fd = some o) (hpipe : o.isPipe = true) (hheld : w.held parent children o = false) :
    w.child j = .gone := by
  rw [← Bool.not_eq_true, held_iff, not_or] at hheld
  obtain ⟨hparent, hchild⟩ := hheld
  cases hstage : w.child j with
  | gone => rfl
  | unborn =>
    obtain ⟨i, -, hfork⟩ := hphase.unborn j (List.getElem?_eq_some_iff.1 hc).1 hstage
    exact absurd (by simp [hfork, ParentPc.holds, hpipe]) hparent
  | forked => exact absurd ⟨j, c, hc, by simp [hstage, Stage.holds, hpipe]⟩ hchild
  | running p => exact absurd ⟨j, c, hc, by simpa [hstage, Stage.holds] using Fds.has_iff.2 ⟨fd, ho⟩⟩ hchild

theorem step_child {i : Nat} (hstep : w.step exec act cap parent children n (.child i) = some w') :
    ∃ c, children[i]? = some c ∧ w.childStep exec act cap parent children c i = some w' :=
  Option.bind_eq_some_iff.1 hstep

/-- A step of the parent does not move the row. -/
theorem row_parentStep (hphase : Phase children n w) (hstep : w.parentStep children n = some w') :
    w'.row exec m m' children = w.row exec m m' children := by
  rw [World.parentStep] at hstep
  cases hpc : w.parent with
  | forking j =>
    simp only [hpc] at hstep
    split at hstep
    · rename_i hlt
      cases hstep
      -- a child that has not been forked and one that has not closed the pipes have the same command before them
      have hc := List.getElem?_eq_getElem hlt
      have hsame : Stage.prog exec children[j] .forked = (w.row exec m m' children).prog j := by
        rw [row_prog hc, hphase.forking j j hpc (Nat.le_refl j)]
        rfl
      rw [row_parent, row_become hc, hsame, Function.update_eq_self]
    · cases hstep
      rfl
  | waiting i =>
    simp only [hpc] at hstep
    split at hstep
    · split at hstep
      · cases hstep
        rfl
      · cases hstep
    · cases hstep
      rfl
  | done =>
    simp only [hpc] at hstep
    cases hstep

/-- A step of a running command is a step of the row. -/
theorem row_childStep (hw : Wired m m' parent children) (hphase : Phase children n w) {q : P}
    (hc : children[j]? = some c) (hrun : w.child j = .running q)
    (hstep : w.childStep exec act cap parent children c j = some w') :
    Dataflow.Step act children.length (w.row exec m m' children) j (w'.row exec m m' children) := by
  have hlt := (List.getElem?_eq_some_iff.1 hc).1
  have hpos : 0 < children.length := by omega
  have hprog : (w.row exec m m' children).prog j = some q := by rw [row_prog hc, hrun]; rfl
  simp only [World.childStep, hrun] at hstep
  cases hact : act q with
  | exit =>
    simp only [hact] at hstep
    cases hstep
    rw [row_become hc]
    exact .exit hprog hact
  | read next =>
    simp only [hact, World.read] at hstep
    cases j with
    | zero =>
      simp only [hw.input c hc] at hstep
      cases hfile : w.file m with
      | cons b rest =>
        simp only [hfile] at hstep
        cases hstep
        rw [row_file hc]
        exact .take hprog hact hfile
      | nil =>
        simp only [hfile] at hstep
        cases hstep
        rw [row_become hc]
        exact .finish hprog hact hfile (.inl rfl)
    | succ j =>
      simp only [hw.rd j c hc] at hstep
      have hbuf : (w.row exec m m' children).buf (j + 1) = w.pipe j := buf_pipe (Nat.succ_pos j) hlt
      cases hpipe : w.pipe j with
      | cons b rest =>
        simp only [hpipe] at hstep
        cases hstep
        have hrow := @row_pipe P exec m m' children w c (j + 1) hc (.running (next (some b))) (j + 1) (Nat.succ_pos j)
          hlt rest
        rw [Nat.add_sub_cancel] at hrow
        rw [hrow]
        exact .take hprog hact (hbuf.trans hpipe)
      | nil =>
        simp only [hpipe] at hstep
        split at hstep
        · cases hstep
        · rename_i hheld
          cases hstep
          -- nobody can write to the pipe, so the child before this one is gone
          have hc' := List.getElem?_eq_getElem (Nat.lt_of_succ_lt hlt)
          have hgone := gone_of_not_held hphase hc' (hw.wr j _ hc' hlt) rfl (Bool.not_eq_true _ ▸ hheld)
          have hnone : (w.row exec m m' children).prog (j + 1 - 1) = none := by
            rw [Nat.add_sub_cancel, row_prog hc', hgone]
            rfl
          rw [row_become hc]
          exact .finish hprog hact (hbuf.trans hpipe) (.inr hnone)
  | write b next =>
    simp only [hact, World.write] at hstep
    by_cases hlast : j + 1 = children.length
    · simp only [hw.output j c hc hlast] at hstep
      cases hstep
      have hput := @Step.put P CChar act children.length _ j q next b hprog hact
      rw [hlast, buf_length hpos] at hput
      rw [row_written hc]
      exact hput
    · have hlt' : j + 1 < children.length := by omega
      simp only [hw.wr j c hc hlt'] at hstep
      split at hstep
      · split at hstep
        · cases hstep
          have hput := @Step.put P CChar act children.length _ j q next b hprog hact
          have hrow := @row_pipe P exec m m' children w c j hc (.running next) (j + 1) (Nat.succ_pos j) hlt'
            (w.pipe j ++ [b])
          rw [buf_pipe (Nat.succ_pos j) hlt'] at hput
          rw [Nat.add_sub_cancel] at hrow
          rw [hrow]
          exact hput
        · cases hstep
      · rename_i hheld
        cases hstep
        -- nobody can read from the pipe, so the next child is gone
        have hc' := List.getElem?_eq_getElem hlt'
        have hgone := gone_of_not_held hphase hc' (hw.rd j _ hc') rfl (Bool.not_eq_true _ ▸ hheld)
        have hnone : (w.row exec m m' children).prog (j + 1) = none := by
          rw [row_prog hc', hgone]
          rfl
        rw [row_become hc]
        exact .kill hprog hact hlt' hnone

end Row

end UnixTasks.Grep
