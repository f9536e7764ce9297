import UnixTasks.Daemon.Pairing
import UnixTasks.Inotify.Records

/-!
# The buffers for the paths

The daemon puts every path together in memory that it has asked for, by a sum of lengths of its own.  The member `len`
of an event is the length of its field `name`: it is given with every step, for the event that is handled.

* (`State.buffers`) what is allocated in a step and what is written there;
* (`scanBuffers_fit`) `monitor_directory`, `add_inotify` and `copy` ask for enough;
* (`eventBuffers_fit_iff`) `monitor_events` measures one path and writes another;
* (`buffers_fit_iff`) in a run all paths fit if and only if the backup directory is never too long for an event.
-/

namespace UnixTasks.Daemon

open ActionSystem CChar

/-- Memory from `malloc(size)`, and the string that is written there. -/
structure Buffer where
  size : Nat
  text : Str
  deriving DecidableEq, Repr

/-- The string has room, with its NUL. -/
def Buffer.Fits (b : Buffer) : Prop := b.text.length + 1 ≤ b.size

instance (b : Buffer) : Decidable b.Fits := inferInstanceAs (Decidable (_ ≤ _))

/-- `path11` and `path22` of `copy(path1, path2, len, name)`. -/
def copyBuffers (path1 path2 : Str) (len : Nat) (name : Str) : List Buffer :=
  [⟨path1.length + len + 15, join path1 name⟩, ⟨path2.length + len + 15, join path2 name⟩]

/-- The two entries of the tables that `add_inotify` makes for a descriptor. -/
def addInotifyBuffers (path1 path2 : Str) : List Buffer :=
  [⟨path1.length + 1, path1⟩, ⟨path2.length + 1, path2⟩]

/-- The buffers of a step of `monitor_directory` and of what it calls. -/
def scanBuffers (path1 path2 : Str) (pc : ScanPc) (a : Action) : List Buffer :=
  match pc, a with
  | .watch, .addWatch (some _) => addInotifyBuffers path1 path2
  | .entries (e :: _), _ =>
    if e.name = [chr '.'] ∨ e.name = [chr '.', chr '.'] then []
    else if e.isDir then
      [⟨path1.length + e.name.length + 5, join path1 e.name⟩, ⟨path2.length + e.name.length + 5, join path2 e.name⟩]
    else copyBuffers path1 path2 e.name.length e.name
  | _, _ => []

/-- `path11`, and `path22` if `opendir(path11)` succeeds: it gets the size of the other one. -/
def dirBuffers (wd back : Str) (len : Nat) (name : Str) (a : Action) : List Buffer :=
  ⟨wd.length + len + 5, join wd name⟩ ::
    if a = .opendir true then [⟨wd.length + len + 5, join back name⟩] else []

/-- The buffers of a step of `monitor_events`, for an event whose descriptor has these two paths. -/
def eventBuffers (wd back : Str) (len : Nat) (e : Event) (pc : EventPc) (a : Action) : List Buffer :=
  match pc with
  | .check => [⟨wd.length + len + 5, join wd e.name⟩]
  | .create => if e.create then dirBuffers wd back len e.name a else []
  | .createCopy | .movedCopy => copyBuffers wd back len e.name
  | .modify => if e.modify then copyBuffers wd back len e.name else []
  | .movedTo => if e.movedTo then dirBuffers wd back len e.name a else []

/-- The buffers of a step. -/
def State.buffers (s : State) (len : Nat) (a : Action) : List Buffer :=
  match s.stack with
  | .scan path1 path2 pc :: _ => scanBuffers path1 path2 pc a
  | .events (e :: _) pc :: _ =>
    match s.wds e.wd, s.backs e.wd with
    | some wd, some back => eventBuffers wd back len e pc a
    | _, _ => []
  | _ => []

/-- A step, with the member `len` of the event that is handled. -/
def State.stepWith (s : State) (x : Action × Nat) : Option State := s.step x.1

/-- The paths of the step fit. -/
def BuffersFit (s : State) (x : Action × Nat) : Prop := ∀ b ∈ s.buffers x.2 x.1, b.Fits

instance (s : State) (x : Action × Nat) : Decidable (BuffersFit s x) := inferInstanceAs (Decidable (∀ b ∈ _, _))

/-- The event that `monitor_events` handles, and its next statement for it. -/
def State.handled (s : State) : Option (Event × EventPc) :=
  match s.stack with
  | .events (e :: _) pc :: _ => some (e, pc)
  | _ => none

/-- The field `name` of the event that is handled has room for the name and its NUL. -/
def LenOk (s : State) (x : Action × Nat) : Prop := ∀ p ∈ s.handled, p.1.name.length + 1 ≤ x.2

instance (s : State) (x : Action × Nat) : Decidable (LenOk s x) := inferInstanceAs (Decidable (∀ p ∈ s.handled, _))

/-- `monitor_events` asks whether what has been created, or moved here, is a directory. -/
def Event.opens (e : Event) : EventPc → Bool
  | .create => e.create
  | .movedTo => e.movedTo
  | _ => false

/-- Where the directory of an event is opened, the backup directory is not too long. -/
def Roomy (s : State) (x : Action × Nat) : Prop :=
  ∀ p ∈ s.handled, p.1.opens p.2 = true → x.1 = .opendir true →
    s.pathArgv2.length + p.1.name.length ≤ s.pathArgv1.length + x.2 + 3

instance (s : State) (x : Action × Nat) : Decidable (Roomy s x) := inferInstanceAs (Decidable (∀ p ∈ s.handled, _))

/-- The event that a record in the buffer is: three bits of its mask are tested, and its name is read as a string. -/
def Event.ofRecord (r : Inotify.InotifyEvent) : Event where
  wd := r.wd.toNat
  create := r.mask &&& Inotify.inCreate != 0
  modify := r.mask &&& Inotify.inModify != 0
  movedTo := r.mask &&& Inotify.inMovedTo != 0
  name := CString.cstr r.name

/-- A field with a NUL in it, as inotify fills it, has room for its name. -/
theorem Event.length_ofRecord {r : Inotify.InotifyEvent} (h : 0 ∈ r.name) :
    (Event.ofRecord r).name.length + 1 ≤ r.name.length := by
  obtain ⟨t, ht⟩ := (CString.cstr_cases r.name).resolve_left fun hnone => hnone.1 h
  have hlen := congrArg List.length ht
  rw [List.length_append, List.length_cons] at hlen
  simp only [Event.ofRecord]
  omega

/-- The records in the buffer meet `LenOk`. -/
theorem lenOk_of_record {s : State} {x : Action × Nat}
    (h : ∀ p ∈ s.handled, ∃ r, p.1 = Event.ofRecord r ∧ 0 ∈ r.name ∧ x.2 = r.name.length) : LenOk s x := by
  intro p hp
  obtain ⟨r, hr, hnul, hlen⟩ := h p hp
  rw [hr, hlen]
  exact Event.length_ofRecord hnul

/-! ### One step -/

private theorem length_join (path name : Str) : (join path name).length = path.length + name.length + 1 := by
  simp [join]
  omega

section Fit

variable {path1 path2 name : Str} {len : Nat}

private theorem copyBuffers_fit (h : name.length ≤ len) : ∀ b ∈ copyBuffers path1 path2 len name, b.Fits := by
  intro b hb
  rcases List.mem_pair.1 hb with rfl | rfl
  · simp only [Buffer.Fits, length_join]
    omega
  · simp only [Buffer.Fits, length_join]
    omega

theorem scanBuffers_fit (pc : ScanPc) (a : Action) : ∀ b ∈ scanBuffers path1 path2 pc a, b.Fits := by
  intro b hb
  unfold scanBuffers at hb
  split at hb
  · rcases List.mem_pair.1 hb with rfl | rfl
    · exact Nat.le_refl _
    · exact Nat.le_refl _
  · split at hb
    · cases hb
    · split at hb
      · rcases List.mem_pair.1 hb with rfl | rfl
        · simp only [Buffer.Fits, length_join]
          omega
        · simp only [Buffer.Fits, length_join]
          omega
      · exact copyBuffers_fit (Nat.le_refl _) b hb
  · cases hb

/-- The path of the backup is as long as there is room for the other one. -/
private theorem dirBuffers_fit_iff (h : name.length + 1 ≤ len) (a : Action) :
    (∀ b ∈ dirBuffers path1 path2 len name a, b.Fits) ↔
      (a = .opendir true → path2.length + name.length ≤ path1.length + len + 3) := by
  have hfirst : (⟨path1.length + len + 5, join path1 name⟩ : Buffer).Fits := by
    simp only [Buffer.Fits, length_join]
    omega
  rw [dirBuffers, List.forall_mem_cons, and_iff_right hfirst]
  split
  · rename_i ha
    simp only [List.forall_mem_singleton, Buffer.Fits, length_join, ha, true_implies]
    omega
  · rename_i ha
    simp [ha]

theorem eventBuffers_fit_iff {e : Event} (h : e.name.length + 1 ≤ len) (pc : EventPc) (a : Action) :
    (∀ b ∈ eventBuffers path1 path2 len e pc a, b.Fits) ↔
      (e.opens pc = true → a = .opendir true → path2.length + e.name.length ≤ path1.length + len + 3) := by
  have hcopy : ∀ b ∈ copyBuffers path1 path2 len e.name, b.Fits := copyBuffers_fit (by omega)
  cases pc with
  | check =>
    have hcheck : (⟨path1.length + len + 5, join path1 e.name⟩ : Buffer).Fits := by
      simp only [Buffer.Fits, length_join]
      omega
    simpa [eventBuffers, Event.opens] using hcheck
  | createCopy | movedCopy => simpa [eventBuffers, Event.opens] using hcopy
  | modify =>
    simp only [eventBuffers, Event.opens]
    split
    · simpa using hcopy
    · simp
  | create | movedTo =>
    simp only [eventBuffers, Event.opens]
    split
    · rename_i hopens
      rw [dirBuffers_fit_iff h, hopens]
      simp
    · rename_i hopens
      simp [hopens]

end Fit

/-- Only for an event it matters what has been asked for. -/
private theorem roomy_of_handled_eq_none {s : State} {x : Action × Nat} (h : s.handled = none) : Roomy s x := by
  intro p hp
  rw [h] at hp
  cases hp

/-- In a state in which the tables hold pairs of paths. -/
private theorem buffersFit_iff_roomy {s : State} {x : Action × Nat} (h : Inv s) (hlen : LenOk s x) :
    BuffersFit s x ↔ Roomy s x := by
  unfold BuffersFit State.buffers
  cases hstack : s.stack with
  | nil => exact iff_of_true (by simp) (roomy_of_handled_eq_none (by simp [State.handled, hstack]))
  | cons f rest =>
    cases f with
    | scan path1 path2 pc =>
      exact iff_of_true (scanBuffers_fit pc x.1) (roomy_of_handled_eq_none (by simp [State.handled, hstack]))
    | caller sig listening =>
      exact iff_of_true (by simp) (roomy_of_handled_eq_none (by simp [State.handled, hstack]))
    | events evs pc =>
      cases evs with
      | nil => exact iff_of_true (by simp) (roomy_of_handled_eq_none (by simp [State.handled, hstack]))
      | cons e es =>
        have hhandled : s.handled = some (e, pc) := by simp [State.handled, hstack]
        have hevs : Frame.Ok s (.events (e :: es) pc) := h.frames _ (by simp [hstack])
        obtain ⟨path1, path2, hpath1, hpath2, suffix, rfl, rfl⟩ := h.tables e.wd (hevs e (List.mem_cons_self ..))
        -- what the two paths have in common does not matter
        have hlengths : (s.pathArgv2 ++ suffix).length + e.name.length ≤ (s.pathArgv1 ++ suffix).length + x.2 + 3 ↔
            s.pathArgv2.length + e.name.length ≤ s.pathArgv1.length + x.2 + 3 := by
          rw [List.length_append, List.length_append]
          omega
        have hroomy : Roomy s x ↔ (e.opens pc = true → x.1 = .opendir true →
            s.pathArgv2.length + e.name.length ≤ s.pathArgv1.length + x.2 + 3) := by
          simp [Roomy, hhandled]
        simp only [hpath1, hpath2]
        rw [eventBuffers_fit_iff (hlen (e, pc) hhandled), hlengths, hroomy]

/-! ### Runs -/

/-- In every run, whatever the system answers and whenever the two directories are changed, all paths fit the memory
that is asked for them if and only if, wherever the directory of an event is opened, the backup directory and the name
are not longer than the source directory and the field of the name by more than 3. -/
theorem buffers_fit_iff {argv1 argv2 : Str} {s₀ : State} (h₀ : main argv1 argv2 = some s₀) (xs : List (Action × Nat))
    (hlen : AllSteps State.stepWith LenOk s₀ xs) :
    AllSteps State.stepWith BuffersFit s₀ xs ↔ AllSteps State.stepWith Roomy s₀ xs := by
  have hboth : AllSteps State.stepWith (fun s x => LenOk s x ∧ BuffersFit s x) s₀ xs ↔
      AllSteps State.stepWith (fun s x => LenOk s x ∧ Roomy s x) s₀ xs := by
    refine allSteps_congr ?_ ?_ (inv_main h₀)
    · intro s x t hinv _ hstep
      exact inv_step hinv hstep
    · intro s x hinv
      exact and_congr_right fun hok => buffersFit_iff_roomy hinv hok
  rw [allSteps_and, allSteps_and, and_iff_right hlen, and_iff_right hlen] at hboth
  exact hboth

/-- The directory `d` is created in `a`, which is backed up in `b`. -/
theorem buffers_fit_iff_created : AllSteps State.stepWith BuffersFit
      ⟨[chr 'a'], [chr 'b'], fun _ => none, fun _ => none, [], fun _ => none, [],
        [.scan [chr 'a'] [chr 'b'] .start, .caller none false]⟩
      [(.opendir true, 0), (.tau, 0), (.addWatch (some 1), 0), (.readdir [], 0), (.tau, 0), (.tau, 0),
        (.read (some [⟨1, true, false, false, [chr 'd']⟩]), 0), (.tau, 16), (.opendir true, 16)] ↔
    AllSteps State.stepWith Roomy
      ⟨[chr 'a'], [chr 'b'], fun _ => none, fun _ => none, [], fun _ => none, [],
        [.scan [chr 'a'] [chr 'b'] .start, .caller none false]⟩
      [(.opendir true, 0), (.tau, 0), (.addWatch (some 1), 0), (.readdir [], 0), (.tau, 0), (.tau, 0),
        (.read (some [⟨1, true, false, false, [chr 'd']⟩]), 0), (.tau, 16), (.opendir true, 16)] :=
  buffers_fit_iff (rfl : main [chr 'a'] [chr 'b'] = some _) _ (by decide)

/-- With a backup directory of 20 characters the path of the new one takes 23, and 22 are asked for. -/
theorem path_too_long : ∃ s₀ : State, main [chr 'a'] (List.replicate 20 (chr 'b')) = some s₀ ∧
    AllSteps State.stepWith LenOk s₀
      [(.opendir true, 0), (.tau, 0), (.addWatch (some 1), 0), (.readdir [], 0), (.tau, 0), (.tau, 0),
        (.read (some [⟨1, true, false, false, [chr 'd']⟩]), 0), (.tau, 16), (.opendir true, 16)] ∧
    ¬ AllSteps State.stepWith BuffersFit s₀
      [(.opendir true, 0), (.tau, 0), (.addWatch (some 1), 0), (.readdir [], 0), (.tau, 0), (.tau, 0),
        (.read (some [⟨1, true, false, false, [chr 'd']⟩]), 0), (.tau, 16), (.opendir true, 16)] :=
  ⟨_, rfl, by decide, by decide⟩

end UnixTasks.Daemon
