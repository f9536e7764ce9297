import UnixTasks.Grep.Commands

/-!
# The parent and its children go on

The parent forks the children in order and waits for as many as it expects.  Where all have been forked and have closed
the pipes, a child can go on unless it waits for a neighbour in the row.

* (`simulates`) a step of parent or children is a step of the row or leaves it as it is;
* (`Settled`) the pipes have been closed everywhere;
* (`exists_move`) in every state in which the parent has not returned somebody can take a step.
-/

namespace UnixTasks.Grep

open ActionSystem CString CChar Tokens Dataflow

variable {P : Type}

section Row

variable {exec : List (List CChar) → P} {act : P → Act P CChar} {cap : Nat → Nat} {m m' n : Nat} {parent : Fds}
  {children : List Child} {w w' : World P} {c : Child} {j : Nat}

/-! ### The order in which the run begins -/

private theorem read_child {next : Option CChar → P} (h : w.read parent children c j next = some w') :
    w'.parent = w.parent ∧ ∃ p, w'.child = Function.update w.child j (.running p) := by
  unfold World.read at h
  split at h
  · split at h <;> cases h <;> exact ⟨rfl, _, rfl⟩
  · split at h
    · cases h
      exact ⟨rfl, _, rfl⟩
    · split at h <;> cases h
      exact ⟨rfl, _, rfl⟩
  · cases h
    exact ⟨rfl, _, rfl⟩

private theorem write_child {b : CChar} {q : P} (h : w.write cap parent children c j b q = some w') :
    w'.parent = w.parent ∧ ∃ s, s.pending = 0 ∧ w'.child = Function.update w.child j s := by
  unfold World.write at h
  split at h
  · cases h
    exact ⟨rfl, .running q, rfl, rfl⟩
  · split at h
    · split at h <;> cases h
      exact ⟨rfl, .running q, rfl, rfl⟩
    · cases h
      exact ⟨rfl, .gone, rfl, rfl⟩
  · cases h
    exact ⟨rfl, .running q, rfl, rfl⟩

/-- What a step of a child does to the processes. -/
theorem childStep_child (h : w.childStep exec act cap parent children c j = some w') :
    w.child j ≠ .unborn ∧ w.child j ≠ .gone ∧ w'.parent = w.parent ∧
      ∃ s, s.pending = 0 ∧ w'.child = Function.update w.child j s := by
  unfold World.childStep at h
  split at h
  · rename_i hstage
    cases h
    exact ⟨by simp [hstage], by simp [hstage], rfl, .running _, rfl, rfl⟩
  · rename_i p hstage
    refine ⟨by simp [hstage], by simp [hstage], ?_⟩
    split at h
    · obtain ⟨hparent, p, hchild⟩ := read_child h
      exact ⟨hparent, .running p, rfl, hchild⟩
    · exact write_child h
    · cases h
      exact ⟨rfl, .gone, rfl, rfl⟩
  · cases h
  · cases h

private theorem exited_le (children : List Child) (w : World P) : w.exited children ≤ children.length :=
  List.countP_le_length.trans_eq List.length_range

private theorem isGone_iff {s : Stage P} : s.isGone = true ↔ s = .gone := by
  cases s <;> simp [Stage.isGone]

/-- A child that is gone stays so. -/
private theorem exited_mono {s : Stage P} (hnot : w.child j ≠ .gone) (hchild : w'.child = Function.update w.child j s) :
    w.exited children ≤ w'.exited children := by
  refine List.countP_mono_left fun i _ hgone => ?_
  have hne : i ≠ j := by
    rintro rfl
    exact hnot (isGone_iff.1 hgone)
  rwa [hchild, Function.update_of_ne hne]

private theorem become_child_of_ne {i : Nat} {s : Stage P} (h : i ≠ j) : (w.become j s).child i = w.child i :=
  Function.update_of_ne h ..

theorem phase_start (file : Nat → List CChar) : Phase children n (World.start file : World P) where
  unborn := fun _ _ _ => ⟨0, Nat.zero_le _, rfl⟩
  forking := fun _ _ _ _ => rfl
  waiting := by rintro _ ⟨⟩
  done := by rintro ⟨⟩

private theorem phase_parentStep (hlen : children.length = n + 1) (hphase : Phase children n w)
    (hstep : w.parentStep children n = some w') : Phase children n w' := by
  rw [World.parentStep] at hstep
  cases hpc : w.parent with
  | forking j =>
    simp only [hpc] at hstep
    split at hstep
    · cases hstep
      constructor
      · intro i hi hunborn
        have hne : i ≠ j := by
          rintro rfl
          simp [World.become] at hunborn
        replace hunborn : w.child i = .unborn := (become_child_of_ne hne).symm.trans hunborn
        obtain ⟨i', hle, hfork⟩ := hphase.unborn i hi hunborn
        obtain rfl : j = i' := ParentPc.forking.inj (hpc.symm.trans hfork)
        exact ⟨j + 1, by omega, rfl⟩
      · rintro i i' ⟨⟩ hle
        have hne : i' ≠ j := by omega
        exact (become_child_of_ne hne).trans (hphase.forking j i' hpc (by omega))
      · rintro _ ⟨⟩
      · rintro ⟨⟩
    · rename_i hall
      cases hstep
      constructor
      · intro i hi hunborn
        obtain ⟨i', hle, hfork⟩ := hphase.unborn i hi hunborn
        obtain rfl : j = i' := ParentPc.forking.inj (hpc.symm.trans hfork)
        omega
      · rintro _ _ ⟨⟩
      · rintro i ⟨⟩
        exact ⟨Nat.zero_le _, Nat.zero_le _⟩
      · rintro ⟨⟩
  | waiting i =>
    obtain ⟨-, hexited⟩ := hphase.waiting i hpc
    have hborn : ∀ j < children.length, w.child j ≠ .unborn := by
      intro j hj hunborn
      obtain ⟨i', -, hfork⟩ := hphase.unborn j hj hunborn
      rw [hpc] at hfork
      cases hfork
    simp only [hpc] at hstep
    split at hstep
    · split at hstep
      · rename_i hlt htold
        cases hstep
        constructor
        · exact fun j hj hunborn => absurd hunborn (hborn j hj)
        · rintro _ _ ⟨⟩
        · rintro _ ⟨⟩
          exact ⟨hlt, htold.resolve_right (by omega)⟩
        · rintro ⟨⟩
      · cases hstep
    · rename_i hge
      cases hstep
      constructor
      · exact fun j hj hunborn => absurd hunborn (hborn j hj)
      · rintro _ _ ⟨⟩
      · rintro _ ⟨⟩
      · intro _ j hj
        have hle := exited_le children w
        have hall : w.exited children = (List.range children.length).length := by
          rw [List.length_range]
          omega
        exact isGone_iff.1 (List.countP_eq_length.1 hall j (List.mem_range.2 hj))
  | done =>
    simp only [hpc] at hstep
    cases hstep

private theorem phase_childStep (hphase : Phase children n w) (hc : children[j]? = some c)
    (hstep : w.childStep exec act cap parent children c j = some w') : Phase children n w' := by
  obtain ⟨hborn, hhere, hparent, s, hs, hchild⟩ := childStep_child hstep
  constructor
  · intro i hi hunborn
    have hne : i ≠ j := by
      rintro rfl
      rw [hchild, Function.update_self] at hunborn
      rw [hunborn] at hs
      cases hs
    rw [hchild, Function.update_of_ne hne] at hunborn
    rw [hparent]
    exact hphase.unborn i hi hunborn
  · intro i i' hfork hle
    rw [hparent] at hfork
    have hunborn := hphase.forking i i' hfork hle
    have hne : i' ≠ j := by
      rintro rfl
      exact hborn hunborn
    rw [hchild, Function.update_of_ne hne, hunborn]
  · intro i hwait
    rw [hparent] at hwait
    obtain ⟨hle, hexited⟩ := hphase.waiting i hwait
    exact ⟨hle, hexited.trans (exited_mono hhere hchild)⟩
  · intro hdone
    rw [hparent] at hdone
    exact absurd (hphase.done hdone j (List.getElem?_eq_some_iff.1 hc).1) hhere

/-- A step of the parent, or of a child that starts its command, does not move the row, and any other step is a step of
the row. -/
theorem simulates (hw : Wired m m' parent children) (hlen : children.length = n + 1) (hphase : Phase children n w)
    {a : Move} (hstep : w.step exec act cap parent children n a = some w') :
    Phase children n w' ∧ (w'.row exec m m' children = w.row exec m m' children ∨
      ∃ j, Dataflow.Step act children.length (w.row exec m m' children) j (w'.row exec m m' children)) := by
  cases a with
  | parent => exact ⟨phase_parentStep hlen hphase hstep, .inl (row_parentStep hphase hstep)⟩
  | child j =>
    obtain ⟨c, hc, hstep⟩ := step_child hstep
    refine ⟨phase_childStep hphase hc hstep, ?_⟩
    cases hstage : w.child j with
    | running p => exact .inr ⟨j, row_childStep hw hphase hc hstage hstep⟩
    | forked =>
      simp only [World.childStep, hstage] at hstep
      cases hstep
      have hsame : Stage.prog exec c (.running (exec c.comms)) = (w.row exec m m' children).prog j := by
        rw [row_prog hc, hstage]
        rfl
      exact .inl (by rw [row_become hc, hsame, Function.update_eq_self])
    | unborn | gone =>
      simp only [World.childStep, hstage] at hstep
      cases hstep

/-! ### No deadlock -/

/-- The pipes have been closed everywhere: the parent waits, and the children run their commands or are gone. -/
structure Settled (children : List Child) (w : World P) : Prop where
  parent : ∃ i, w.parent = .waiting i
  children : ∀ j < children.length, w.child j = .gone ∨ ∃ p, w.child j = .running p

private theorem not_held (hw : Wired m m' parent children) (hs : Settled children w) {o : Obj} (hpipe : o.isPipe = true)
    (hgone : ∀ i c fd, children[i]? = some c → c.fds.get fd = some o → w.child i = .gone) :
    w.held parent children o = false := by
  rw [← Bool.not_eq_true, held_iff]
  rintro (hparent | ⟨i, c, hc, hchild⟩)
  · obtain ⟨k, hk⟩ := hs.parent
    rw [hk] at hparent
    obtain ⟨fd, hfd⟩ := Fds.has_iff.1 hparent
    rw [hw.parent fd o hfd] at hpipe
    cases hpipe
  · rcases hs.children i (List.getElem?_eq_some_iff.1 hc).1 with hi | ⟨p, hi⟩
    · rw [hi] at hchild
      cases hchild
    · rw [hi] at hchild
      obtain ⟨fd, hfd⟩ := Fds.has_iff.1 hchild
      rw [hgone i c fd hc hfd] at hi
      cases hi

private theorem not_held_wr (hw : Wired m m' parent children) (hs : Settled children w) (hgone : w.child j = .gone) :
    w.held parent children (.wr j) = false := by
  refine not_held hw hs rfl fun i c fd hc hfd => ?_
  rcases hw.closed i c fd _ hc hfd rfl with ⟨-, h⟩ | ⟨-, h⟩
  · cases h
  · rw [← Obj.wr.inj h, hgone]

private theorem not_held_rd (hw : Wired m m' parent children) (hs : Settled children w)
    (hgone : w.child (j + 1) = .gone) :
    w.held parent children (.rd j) = false := by
  refine not_held hw hs rfl fun i c fd hc hfd => ?_
  rcases hw.closed i c fd _ hc hfd rfl with ⟨hpos, h⟩ | ⟨-, h⟩
  · have hi : i = j + 1 := by
      have := Obj.rd.inj h
      omega
    rw [hi, hgone]
  · cases h

private theorem gone_of_row (hlt : j < children.length) (hnone : (w.row exec m m' children).prog j = none) :
    w.child j = .gone := by
  rw [row_prog (List.getElem?_eq_getElem hlt)] at hnone
  cases hstage : w.child j with
  | gone => rfl
  | _ =>
    rw [hstage] at hnone
    cases hnone

/-- A program of the row that need not wait is a child that can take a step. -/
theorem step_of_ready (hw : Wired m m' parent children) (hs : Settled children w) (hlt : j < children.length)
    (hready : Ready act (fun i => cap (i - 1)) children.length (w.row exec m m' children) j) :
    ∃ w', w.step exec act cap parent children n (.child j) = some w' := by
  obtain ⟨q, hq, hready⟩ := hready
  have hc := List.getElem?_eq_getElem hlt
  obtain ⟨p, hp⟩ := (hs.children j hlt).resolve_left fun hgone => by
    rw [row_prog hc, hgone] at hq
    cases hq
  obtain rfl : p = q := by
    rw [row_prog hc, hp] at hq
    exact Option.some.inj hq
  simp only [World.step, hc, Option.bind_some, World.childStep, hp]
  cases hact : act p with
  | exit => exact ⟨_, rfl⟩
  | read next =>
    simp only [hact] at hready
    simp only [World.read]
    cases j with
    | zero =>
      simp only [hw.input _ hc]
      split <;> exact ⟨_, rfl⟩
    | succ j =>
      rw [hw.rd j _ hc]
      cases hpipe : w.pipe j with
      | cons b rest => exact ⟨_, by simp only [hpipe]; rfl⟩
      | nil =>
        have hbuf : (w.row exec m m' children).buf (j + 1) = w.pipe j := buf_pipe (Nat.succ_pos j) hlt
        have hnone := (hready.resolve_left (by rw [hbuf, hpipe]; simp)).resolve_left (by omega)
        have hheld := not_held_wr hw hs (gone_of_row (Nat.lt_of_succ_lt hlt) hnone)
        exact ⟨_, by simp only [hpipe, hheld]; rfl⟩
  | write b next =>
    simp only [hact] at hready
    simp only [World.write]
    by_cases hlast : j + 1 = children.length
    · rw [hw.output j _ hc hlast]
      exact ⟨_, rfl⟩
    · have hlt' : j + 1 < children.length := by omega
      rw [hw.wr j _ hc hlt']
      rcases hready.resolve_left hlast with ⟨-, hnone⟩ | hroom
      · have hheld := not_held_rd hw hs (gone_of_row hlt' hnone)
        exact ⟨_, by simp only [hheld]; rfl⟩
      · rw [buf_pipe (Nat.succ_pos j) hlt', Nat.add_sub_cancel] at hroom
        cases hheld : w.held parent children (.rd j) with
        | true => exact ⟨_, by simp only [hheld, if_true]; exact if_pos hroom⟩
        | false => exact ⟨_, by simp only [hheld]; rfl⟩

/-- Until the parent has returned, somebody can take a step. -/
theorem exists_move (hw : Wired m m' parent children) (hcap : ∀ i, 0 < cap i) (hlen : children.length = n + 1)
    (hphase : Phase children n w) (hdone : w.parent ≠ .done) :
    ∃ a w', w.step exec act cap parent children n a = some w' := by
  cases hpc : w.parent with
  | done => exact absurd hpc hdone
  | forking j =>
    refine ⟨.parent, ?_⟩
    simp only [World.step, World.parentStep, hpc]
    split <;> exact ⟨_, rfl⟩
  | waiting i =>
    have hborn : ∀ j < children.length, w.child j ≠ .unborn := by
      intro j hj hunborn
      obtain ⟨i', -, hfork⟩ := hphase.unborn j hj hunborn
      rw [hpc] at hfork
      cases hfork
    by_cases hforked : ∃ j < children.length, w.child j = .forked
    · obtain ⟨j, hj, hstage⟩ := hforked
      refine ⟨.child j, ?_⟩
      simp only [World.step, List.getElem?_eq_getElem hj, Option.bind_some, World.childStep, hstage]
      exact ⟨_, rfl⟩
    · have hs : Settled children w := by
        refine ⟨⟨i, hpc⟩, fun j hj => ?_⟩
        cases hstage : w.child j with
        | unborn => exact absurd hstage (hborn j hj)
        | forked => exact absurd ⟨j, hj, hstage⟩ hforked
        | running p => exact .inr ⟨p, rfl⟩
        | gone => exact .inl rfl
      by_cases htold : i < n + 1 → i < w.exited children ∨ children.length ≤ i
      · refine ⟨.parent, ?_⟩
        simp only [World.step, World.parentStep, hpc]
        split
        · rename_i hi
          exact ⟨_, if_pos (htold hi)⟩
        · exact ⟨_, rfl⟩
      · -- the parent has been told of every exit, so some child is still there
        obtain ⟨j, hj, hstage⟩ : ∃ j < children.length, w.child j ≠ .gone := by
          by_contra hnone
          have hall : w.exited children = (List.range children.length).length := by
            refine List.countP_eq_length.2 fun j hj => isGone_iff.2 ?_
            by_contra hj'
            exact hnone ⟨j, List.mem_range.1 hj, hj'⟩
          rw [List.length_range] at hall
          exact htold fun hi => .inl (by omega)
        have hprog : (w.row exec m m' children).prog j ≠ none := fun h => hstage (gone_of_row hj h)
        obtain ⟨j', hj', hready⟩ :=
          @exists_ready P CChar act (fun i => cap (i - 1)) _ j (fun i => hcap (i - 1)) _ hj hprog
        exact ⟨.child j', step_of_ready hw hs hj' hready⟩

end Row

end UnixTasks.Grep
