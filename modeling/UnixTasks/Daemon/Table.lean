import UnixTasks.Daemon.Pairing

/-!
# The tables wds and backs

`add_inotify` writes to the two tables at the number that `inotify_add_watch` returns, and `monitor_events` reads them
at the number that an event carries.  An inotify instance numbers its watches 1, 2, 3 and so on; each table has 100
entries, and nobody compares the two.

* (`issued_subset`, `issued_addWatch`) which numbers an instance has given away after a step;
* (`inTable_iff`) while all of them lie in the tables, the next index does unless it belongs to the watch number 100;
* (`table_iff`) the runs in which every index lies in the tables.
-/

namespace UnixTasks.Daemon

open ActionSystem CChar

/-- `calloc(100, sizeof(char*))`. -/
def tableSize : Nat := 100

/-- How many watches the inotify instance has made. -/
def State.made (s : State) : Nat := s.issued.dedup.length

/-- A directory that is watched keeps its number, and another one gets the next number. -/
def Numbered (s : State) : Action → Prop
  | .addWatch (some wd) => wd ∈ s.issued ∨ wd = s.made + 1
  | _ => True

/-- The index at which `monitor_events` uses the tables for its event. -/
def State.eventIndex (s : State) : Option Nat :=
  match s.stack with
  | .events (e :: _) _ :: _ => some e.wd
  | _ => none

/-- The index at which a step uses the tables. -/
def State.tableIndex (s : State) : Action → Option Nat
  | .addWatch wd => wd
  | _ => s.eventIndex

/-- The index lies in the tables. -/
def InTable (s : State) (a : Action) : Prop := ∀ i ∈ s.tableIndex a, i < tableSize

/-- A watch is made only while there are fewer than 99. -/
def FewWatches (s : State) : Action → Prop
  | .addWatch (some wd) => wd ∉ s.issued → s.made + 1 < tableSize
  | _ => True

section Steps

variable {s t : State} {a : Action}

theorem issued_addWatch {wd : Option Nat} (hs : s.step (.addWatch wd) = some t) : t.issued = wd.toList ++ s.issued := by
  simp only [State.step] at hs
  split at hs
  · rename_i path k hk
    obtain ⟨path2, rest, -, hwd⟩ := addWatch_cases hk
    obtain rfl := Option.some.inj hs
    rw [hwd]
    cases wd <;> rfl
  · cases hs

/-- Only `inotify_add_watch` gives away a number. -/
theorem issued_subset (hs : s.step a = some t) (ha : ∀ wd, a ≠ .addWatch wd) : t.issued ⊆ s.issued := by
  have hrequest : ∀ sig dir, (s.request sig dir).issued ⊆ s.issued := fun _ _ => List.Subset.refl _
  have hhandle : ∀ sig s', s.handle sig = some s' → s'.issued ⊆ s.issued := by
    intro sig s' h
    obtain ⟨-, dir, -, rfl⟩ := handle_eq_some h
    exact List.nil_subset _
  by_cases hwatch : ∃ path k, s.next = .addWatch path k
  · obtain ⟨path, k, hk⟩ := hwatch
    cases a with
    | addWatch wd => exact absurd rfl (ha wd)
    | request sig dir =>
      simp only [State.step] at hs
      split at hs <;> cases hs
      exact hrequest sig dir
    | handle sig => exact hhandle sig t hs
    | _ => simp [State.step, hk] at hs
  · refine step_of_always ((moves_next s).mono fun t hm => ?_) hrequest hhandle hs
    cases hm with
    | scanWatches hstack wd => exact absurd ⟨_, _, by rw [State.next, hstack]; rfl⟩ hwatch
    | _ => exact List.Subset.refl _

/-- All numbers that the instance has given away lie in the tables. -/
def Within (s : State) : Prop := ∀ wd ∈ s.issued, wd < tableSize

/-- The event carries a number that the instance has given away. -/
private theorem eventIndex_mem (hinv : Inv s) {i : Nat} (hi : i ∈ s.eventIndex) : i ∈ s.issued := by
  unfold State.eventIndex at hi
  split at hi
  · rename_i e es pc rest hstack
    obtain rfl := Option.some.inj hi
    have hok : Frame.Ok s (.events (e :: es) pc) := hinv.frames _ (by rw [hstack]; exact List.mem_cons_self ..)
    exact hok e (List.mem_cons_self ..)
  · cases hi

/-- While all numbers lie in the tables, so does the next index, unless it belongs to one watch too many. -/
theorem inTable_iff (hinv : Inv s) (h : Within s) (hnum : Numbered s a) : InTable s a ↔ FewWatches s a := by
  have hevent : ∀ i ∈ s.eventIndex, i < tableSize := fun i hi => h i (eventIndex_mem hinv hi)
  cases a with
  | addWatch wd =>
    cases wd with
    | none => exact iff_of_true (fun i hi => by cases hi) trivial
    | some wd =>
      constructor
      · intro hin hnew
        have hnext : wd = s.made + 1 := hnum.resolve_left hnew
        rw [← hnext]
        exact hin wd rfl
      · intro hfew i hi
        obtain rfl := Option.some.inj hi
        by_cases hold : wd ∈ s.issued
        · exact h wd hold
        · rw [hnum.resolve_left hold]
          exact hfew hold
  | _ => exact iff_of_true hevent trivial

private theorem within_step (hinv : Inv s) (h : Within s) (hnum : Numbered s a) (hfew : FewWatches s a)
    (hs : s.step a = some t) : Within t := by
  by_cases ha : ∃ wd, a = .addWatch wd
  · obtain ⟨wd, rfl⟩ := ha
    have hin : InTable s (.addWatch wd) := (inTable_iff hinv h hnum).2 hfew
    intro i hi
    rw [issued_addWatch hs, List.mem_append, Option.mem_toList] at hi
    rcases hi with hi | hi
    · exact hin i hi
    · exact h i hi
  · exact fun i hi => h i (issued_subset hs (fun wd hwd => ha ⟨wd, hwd⟩) hi)

end Steps

/-- Whatever the system answers, whichever events come and whatever is requested: every index at which a run uses the
tables lies in them if and only if no instance makes more than 99 watches. -/
theorem table_iff {argv1 argv2 : Str} {s₀ : State} {as : List Action} (h₀ : main argv1 argv2 = some s₀)
    (hnum : AllSteps State.step Numbered s₀ as) :
    AllSteps State.step InTable s₀ as ↔ AllSteps State.step FewWatches s₀ as := by
  have hstart : Inv s₀ ∧ Within s₀ := by
    refine ⟨inv_main h₀, fun wd hwd => ?_⟩
    obtain ⟨-, rfl⟩ := main_eq_some h₀
    cases hwd
  have hstep : ∀ s a t, Inv s ∧ Within s → Numbered s a ∧ FewWatches s a → s.step a = some t → Inv t ∧ Within t := by
    intro s a t ⟨hinv, h⟩ ⟨hnum, hfew⟩ hs
    exact ⟨inv_step hinv hs, within_step hinv h hnum hfew hs⟩
  have hiff : ∀ s a, Inv s ∧ Within s → (Numbered s a ∧ FewWatches s a ↔ Numbered s a ∧ InTable s a) := by
    intro s a ⟨hinv, h⟩
    exact and_congr_right fun hnum => (inTable_iff hinv h hnum).symm
  have hcongr : AllSteps State.step (fun s a => Numbered s a ∧ FewWatches s a) s₀ as ↔
      AllSteps State.step (fun s a => Numbered s a ∧ InTable s a) s₀ as := allSteps_congr hstep hiff hstart
  rw [allSteps_and, allSteps_and, and_iff_right hnum, and_iff_right hnum] at hcongr
  exact hcongr.symm

theorem table_iff_one :
    AllSteps State.step InTable ((main [chr 'a'] [chr 'b']).get rfl) [.opendir true, .tau, .addWatch (some 1)] ↔
      AllSteps State.step FewWatches ((main [chr 'a'] [chr 'b']).get rfl) [.opendir true, .tau, .addWatch (some 1)] :=
  table_iff (Option.some_get _).symm ⟨trivial, trivial, .inr rfl, trivial⟩

/-! ### A hundred directories -/

/-- The scan of a directory that has one entry, the directory `a`, up to its call for the latter. -/
def levelRun (wd : Nat) : List Action :=
  [.opendir true, .tau, .addWatch (some wd),
    .readdir [⟨[chr 'a'], true⟩, ⟨[chr '.'], true⟩, ⟨[chr '.', chr '.'], true⟩], .tau]

/-- `n` directories have been watched, one in the other, and the next one is to be scanned. -/
structure Nested (n : Nat) (s : State) : Prop where
  stack : ∃ path1 path2 rest, s.stack = .scan path1 path2 .start :: rest ∧ path1.head? = some (chr 'a')
  issued : s.issued = (List.range' 1 n).reverse
  argv2 : s.pathArgv2 = [chr 'b']

theorem Nested.made {n : Nat} {s : State} (h : Nested n s) : s.made = n := by
  rw [State.made, h.issued, List.dedup_eq_self.2 (List.nodup_reverse.2 List.nodup_range'), List.length_reverse,
    List.length_range']

/-- One more directory is watched, with the next number. -/
private theorem nested_level {n : Nat} {s : State} (h : Nested n s) :
    ∃ t, run State.step s (levelRun (n + 1)) = some t ∧
    AllSteps State.step Numbered s (levelRun (n + 1)) ∧
    (AllSteps State.step InTable s (levelRun (n + 1)) → n + 1 < tableSize) ∧ Nested (n + 1) t := by
  have hmade := h.made
  obtain ⟨⟨path1, path2, rest, hstack, ha⟩, hissued, hargv2⟩ := h
  have hne : path1 ≠ s.pathArgv2 := by
    rintro rfl
    rw [hargv2] at ha
    exact absurd ha (by decide)
  let es : List Entry := [⟨[chr 'a'], true⟩, ⟨[chr '.'], true⟩, ⟨[chr '.', chr '.'], true⟩]
  let s₁ : State := { s with stack := .scan path1 path2 .mkdir :: rest }
  let s₂ : State := { s with stack := .scan path1 path2 .watch :: rest }
  let s₃ : State := { s.addInotify path1 path2 (some (n + 1)) with stack := .scan path1 path2 .readdir :: rest }
  let s₄ : State := { s₃ with stack := .scan path1 path2 (.entries es) :: rest }
  let t : State := { s₃ with
    stack := .scan (join path1 [chr 'a']) (join path2 [chr 'a']) .start ::
      .scan path1 path2 (.entries es.tail) :: rest }
  have hopen : s.step (.opendir true) = some s₁ := by
    simp only [State.step, State.next, hstack, State.monitorDirectory, if_neg hne, if_true, s₁]
  have hmkdir : s₁.step .tau = some s₂ := rfl
  have hwatch : s₂.step (.addWatch (some (n + 1))) = some s₃ := rfl
  have hreaddir : s₃.step (.readdir es) = some s₄ := rfl
  have hcall : s₄.step .tau = some t := rfl
  refine ⟨t, ?_, ?_, ?_, ?_⟩
  · simp only [levelRun, run_cons, hopen, hmkdir, hwatch, Option.bind_some]
    rfl
  · rw [levelRun, allSteps_cons hopen, allSteps_cons hmkdir, allSteps_cons hwatch]
    refine ⟨trivial, trivial, .inr ?_, AllSteps.of_forall ?_⟩
    · show n + 1 = s.made + 1
      rw [hmade]
    · intro a ha s
      rcases List.mem_pair.1 ha with rfl | rfl <;> trivial
  · intro hin
    rw [levelRun, allSteps_cons hopen, allSteps_cons hmkdir, allSteps_cons hwatch] at hin
    exact hin.2.2.1 (n + 1) rfl
  · refine ⟨⟨_, _, _, rfl, ?_⟩, ?_, hargv2⟩
    · cases path1 with
      | nil => cases ha
      | cons c path1 => exact ha
    · show (n + 1) :: s.issued = _
      rw [hissued, List.range'_1_concat, List.reverse_append, Nat.add_comm 1 n]
      rfl

private theorem exists_nested {s₀ : State} (h₀ : Nested 0 s₀) (n : Nat) : ∃ as s, run State.step s₀ as = some s ∧
    AllSteps State.step Numbered s₀ as ∧ Nested n s := by
  induction n with
  | zero => exact ⟨[], s₀, rfl, trivial, h₀⟩
  | succ n ih =>
    obtain ⟨as, s, hrun, hnum, hs⟩ := ih
    obtain ⟨t, hrun', hnum', -, ht⟩ := nested_level hs
    exact ⟨as ++ levelRun (n + 1), t, run_append_eq_some.2 ⟨s, hrun, hrun'⟩, (allSteps_append hrun).2 ⟨hnum, hnum'⟩, ht⟩

/-- A directory `a` in which there are 99 further ones, each in the one before: the last one is watched with the number
100. -/
theorem outside_table : ∃ s₀ as, main [chr 'a'] [chr 'b'] = some s₀ ∧ AllSteps State.step Numbered s₀ as ∧
    ¬ AllSteps State.step InTable s₀ as := by
  have h₀ : Nested 0 ((main [chr 'a'] [chr 'b']).get rfl) := ⟨⟨_, _, _, rfl, rfl⟩, rfl, rfl⟩
  obtain ⟨as, s, hrun, hnum, hs⟩ := exists_nested h₀ 99
  obtain ⟨t, -, hnum', htable, -⟩ := nested_level hs
  refine ⟨_, as ++ levelRun 100, (Option.some_get _).symm, (allSteps_append hrun).2 ⟨hnum, hnum'⟩, fun hin => ?_⟩
  have hlt : 100 < tableSize := htable ((allSteps_append hrun).1 hin).2
  exact absurd hlt (by decide)

end UnixTasks.Daemon
