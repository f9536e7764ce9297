import UnixTasks.Daemon.Guard
import UnixTasks.Daemon.Table

/-!
# The scan in the memory of main

`main` copies its two arguments to buffers of 100 bytes, and `add_inotify` writes to tables of 100 entries; nobody looks
at a length or at a number.  What goes behind them has no result here.

* (`boundedBoot`, `System.boundedStep`) the calls of `main` and the steps of the scan in this memory;
* (`Visit`) which directories a scan has watched and which ones it is yet to come to;
* (`leads_of_fewDirs`, `fewDirs_of_leads`) the tables are enough if and only if there are fewer than 100 directories;
* (`safe_iff`) when the scan comes to an end without getting into the backup directory.
-/

namespace UnixTasks.Daemon

open ActionSystem CChar

/-- The system when `main` has called `monitor_directory`, if the two arguments fit their buffers. -/
def boundedBoot (argv1 argv2 : Str) (tree : Tree) : Option System :=
  (boundedMain argv1 argv2).map fun daemon => ⟨daemon, tree, [], []⟩

private theorem boundedBoot_eq_some {argv1 argv2 : Str} {t : Tree} {s : System}
    (h : boundedBoot argv1 argv2 t = some s) :
    (argv1.length < argvSize ∧ argv2.length < argvSize) ∧ boot argv1 argv2 t = some s := by
  obtain ⟨d, hd, rfl⟩ := Option.map_eq_some_iff.1 h
  obtain ⟨hfits, hmain⟩ := boundedMain_eq_some hd
  refine ⟨hfits, ?_⟩
  rw [boot, hmain, Option.map_some]

/-- `add_inotify` gets a number that is not in the tables. -/
def System.overruns (s : System) : Bool :=
  match s.daemon.next with
  | .addWatch path _ =>
    s.tree.node (resolve path) ≠ none && decide (tableSize ≤ (watch s.watches (resolve path)).2)
  | _ => false

/-- A step, with no result where it writes behind the tables. -/
def System.boundedStep (s : System) (a : SysAction) : Option System := if s.overruns then none else s.step a

/-- The directories that are to be scanned: those of the source directory that are not in the backup directory. -/
structure ToScan (t : Tree) (argv1 argv2 : Str) (d : List Name) : Prop where
  source : resolve argv1 <+: d
  clear : ¬ resolve argv2 <+: d
  dir : t.node d = some .dir

/-- There are fewer of them than the tables have entries. -/
def FewDirs (t : Tree) (argv1 argv2 : Str) : Prop :=
  ∀ ds : List (List Name), ds.Nodup → (∀ d ∈ ds, ToScan t argv1 argv2 d) → ds.length < tableSize

/-! ### What a scan visits -/

/-- The scan of the directory `p` is yet to watch the directory `d`. -/
def ScanPc.Owes (p d : List Name) : ScanPc → Prop
  | .start | .mkdir | .watch => p <+: d
  | .readdir => ∃ n, p ++ [n] <+: d
  | .entries es => ∃ n : Name, ⟨n.text, true⟩ ∈ es ∧ p ++ [n] <+: d

def Frame.Owes (d : List Name) : Frame → Prop
  | .scan path1 _ pc => pc.Owes (resolve path1) d
  | .events .. | .caller .. => False

/-- The scan of a directory of the tree `t₀`, into the same place of the backup directory. -/
structure ScanPc.Visits (t₀ : Tree) (argv1 argv2 path1 path2 : Str) (pc : ScanPc) : Prop where
  mirrors : ∃ x, Mirrors (resolve argv1) (resolve argv2) path1 path2 x
  dir : pc ≠ .start → ¬ resolve argv2 <+: resolve path1 → t₀.node (resolve path1) = some .dir
  named : ∀ es, pc = .entries es → ∀ e ∈ es, (e.name = [chr '.'] ∨ e.name = [chr '.', chr '.']) ∨ ∃ n : Name,
    e.name = n.text

def Frame.Visits (t₀ : Tree) (argv1 argv2 : Str) : Frame → Prop
  | .scan path1 path2 pc => pc.Visits t₀ argv1 argv2 path1 path2
  | .events .. | .caller .. => False

/-- A scan from the tree `t₀`: what is to be scanned is watched, once, or some call is yet to come to it. -/
structure Visit (t₀ : Tree) (argv1 argv2 : Str) (s : System) : Prop where
  walk : Walk t₀ argv2 s
  frames : ∃ fs, s.daemon.stack = fs ++ [.caller none false] ∧ ∀ f ∈ fs, f.Visits t₀ argv1 argv2
  owed : ∀ d, ToScan t₀ argv1 argv2 d → d ∈ s.watches ∨ ∃ f ∈ s.daemon.stack, f.Owes d
  once : s.watches.Nodup
  watched : ∀ d ∈ s.watches, ToScan t₀ argv1 argv2 d

section Visit

variable {t₀ : Tree} {argv1 argv2 path1 path2 : Str} {s s' : System} {rest : List Frame} {pc : ScanPc} {d p : List Name}

/-- What lies above a directory that is to be scanned. -/
theorem ToScan.above (h : ToScan t₀ argv1 argv2 d) (hle : p <+: d) :
    t₀.node p = some .dir ∧ ¬ resolve argv2 <+: p := by
  refine ⟨?_, fun hbackup => h.clear (hbackup.trans hle)⟩
  obtain ⟨z, rfl⟩ := hle
  by_cases hz : z = []
  · have hdir := h.dir
    rwa [hz, List.append_nil] at hdir
  · apply t₀.node_of_append hz
    rw [h.dir]
    exact Option.some_ne_none _

private theorem Visit.node_above (h : Visit t₀ argv1 argv2 s) (hd : ToScan t₀ argv1 argv2 d) (hle : p <+: d) :
    s.tree.node p = some .dir := by
  obtain ⟨hdir, hclear⟩ := hd.above hle
  rw [h.walk.outside p hclear, hdir]

/-- The scan that runs. -/
private theorem Visit.top (h : Visit t₀ argv1 argv2 s) (hstack : s.daemon.stack = .scan path1 path2 pc :: rest) :
    pc.Visits t₀ argv1 argv2 path1 path2 ∧
      ∃ fs, rest = fs ++ [.caller none false] ∧ ∀ f ∈ fs, f.Visits t₀ argv1 argv2 := by
  obtain ⟨fs, hfs, hvisits⟩ := h.frames
  rw [hstack] at hfs
  cases fs with
  | nil => cases hfs
  | cons f fs =>
    obtain ⟨rfl, rfl⟩ := List.cons.inj hfs
    obtain ⟨hf, hvisits⟩ := List.forall_mem_cons.1 hvisits
    exact ⟨hf, fs, rfl, hvisits⟩

/-- The functions `gs` go on in the place of the scan that runs, and what it owes they owe. -/
private theorem Visit.of_top (h : Visit t₀ argv1 argv2 s) (gs : List Frame)
    (hstack : s.daemon.stack = .scan path1 path2 pc :: rest) (hwalk : Walk t₀ argv2 s')
    (hstack' : s'.daemon.stack = gs ++ rest) (hvisits : ∀ g ∈ gs, g.Visits t₀ argv1 argv2)
    (howes : ∀ d, ToScan t₀ argv1 argv2 d → pc.Owes (resolve path1) d → d ∈ s'.watches ∨ ∃ g ∈ gs, g.Owes d)
    (hsub : s.watches ⊆ s'.watches) (honce : s'.watches.Nodup) (hwatched : ∀ d ∈ s'.watches, ToScan t₀ argv1 argv2 d) :
    Visit t₀ argv1 argv2 s' := by
  obtain ⟨-, fs, rfl, hfs⟩ := h.top hstack
  refine ⟨hwalk, ⟨gs ++ fs, ?_, List.forall_mem_append.2 ⟨hvisits, hfs⟩⟩, ?_, honce, hwatched⟩
  · rw [hstack', List.append_assoc]
  · intro d hd
    rcases h.owed d hd with hmem | ⟨f, hf, howed⟩
    · exact .inl (hsub hmem)
    · rw [hstack] at hf
      rw [hstack']
      rcases List.mem_cons.1 hf with rfl | hf
      · rcases howes d hd howed with hmem | ⟨g, hg, hgowes⟩
        · exact .inl hmem
        · exact .inr ⟨g, List.mem_append_left _ hg, hgowes⟩
      · exact .inr ⟨f, List.mem_append_right _ hf, howed⟩

/-- The same, when no directory is watched. -/
private theorem Visit.of_goto {t' : Tree} {queue' : List Event} (h : Visit t₀ argv1 argv2 s) (gs : List Frame)
    (hstack : s.daemon.stack = .scan path1 path2 pc :: rest)
    (hwalk : Walk t₀ argv2 { s.goto (gs ++ rest) with tree := t', queue := queue' })
    (hvisits : ∀ g ∈ gs, g.Visits t₀ argv1 argv2)
    (howes : ∀ d, ToScan t₀ argv1 argv2 d → pc.Owes (resolve path1) d → ∃ g ∈ gs, g.Owes d) :
    Visit t₀ argv1 argv2 { s.goto (gs ++ rest) with tree := t', queue := queue' } :=
  h.of_top gs hstack hwalk rfl hvisits (fun d hd howed => .inr (howes d hd howed)) (List.Subset.refl _) h.once h.watched

/-- The test, or `opendir`: neither turns a directory away that is to be scanned. -/
private theorem visit_start {order : List Entry} {more : Nat} (h : Visit t₀ argv1 argv2 s)
    (hstack : s.daemon.stack = .scan path1 path2 .start :: rest) (hstep : s.step (.daemon order more) = some s') :
    Visit t₀ argv1 argv2 s' := by
  obtain ⟨hvisits, -⟩ := h.top hstack
  by_cases hguard : path1 = s.daemon.pathArgv2
  · rw [step_guard order more hstack hguard] at hstep
    obtain rfl := Option.some.inj hstep
    refine h.of_goto [] hstack (h.walk.goto _) (List.forall_mem_nil _) fun d hd hle => ?_
    have hbackup : resolve argv2 = resolve path1 := by rw [hguard, h.walk.path]
    exact absurd (hbackup ▸ hle) hd.clear
  · by_cases hdir : s.tree.node (resolve path1) = some .dir
    · rw [step_open order more hstack hguard hdir] at hstep
      obtain rfl := Option.some.inj hstep
      refine h.of_goto [.scan path1 path2 .mkdir] hstack (h.walk.goto _) (List.forall_mem_singleton.2 ?_) ?_
      · refine ⟨hvisits.mirrors, fun _ hclear => ?_, fun es hes => ScanPc.noConfusion hes⟩
        rw [← h.walk.outside _ hclear, hdir]
      · exact fun d _ hle => ⟨_, List.mem_singleton_self _, hle⟩
    · rw [step_not_open order more hstack hguard hdir] at hstep
      obtain rfl := Option.some.inj hstep
      refine h.of_goto [] hstack (h.walk.goto _) (List.forall_mem_nil _) fun d hd hle => ?_
      exact absurd (h.node_above hd hle) hdir

/-- The directory is watched, and what else the call owes lies further down. -/
private theorem visit_watch {order : List Entry} {more : Nat} (h : Visit t₀ argv1 argv2 s) (hsafe : s.Safe)
    (hstack : s.daemon.stack = .scan path1 path2 .watch :: rest) (hstep : s.step (.daemon order more) = some s') :
    Visit t₀ argv1 argv2 s' := by
  obtain ⟨hvisits, -⟩ := h.top hstack
  have hclear : ¬ resolve argv2 <+: resolve path1 := by
    have hf := hsafe (.scan path1 path2 .watch) (by rw [hstack]; exact List.mem_cons_self ..) ScanPc.noConfusion
    rwa [System.backup, h.walk.path] at hf
  have hdir := hvisits.dir ScanPc.noConfusion hclear
  rw [step_watch order more hstack (by rw [h.walk.outside _ hclear, hdir])] at hstep
  obtain rfl := Option.some.inj hstep
  obtain ⟨i, -, hat, hle, -, hmem⟩ := watch_spec s.watches (resolve path1)
  have honce := nodup_watch (resolve path1) h.once
  refine h.of_top [.scan path1 path2 .readdir] hstack (h.walk.of_watch ..) rfl ?_ ?_ hle.subset honce ?_
  · refine List.forall_mem_singleton.2 ⟨hvisits.mirrors, fun _ _ => hdir, fun es hes => ScanPc.noConfusion hes⟩
  · rintro d - ⟨z, rfl⟩
    cases z with
    | nil =>
      rw [List.append_nil]
      exact .inl (List.mem_of_getElem? hat)
    | cons n z =>
      refine .inr ⟨_, List.mem_singleton_self _, n, z, ?_⟩
      rw [List.append_assoc]
      rfl
  · intro d hd
    rcases hmem d hd with hd | rfl
    · exact h.watched d hd
    · obtain ⟨x, hmirrors⟩ := hvisits.mirrors
      exact ⟨hmirrors.source ▸ List.prefix_append .., hclear, hdir⟩

/-- The entries have every directory that is to be scanned. -/
private theorem visit_readdir {order : List Entry} {more : Nat} (h : Visit t₀ argv1 argv2 s)
    (hstack : s.daemon.stack = .scan path1 path2 .readdir :: rest) (hstep : s.step (.daemon order more) = some s') :
    Visit t₀ argv1 argv2 s' := by
  obtain ⟨hvisits, -⟩ := h.top hstack
  rw [step_readdir order more hstack] at hstep
  split at hstep
  · rename_i hperm
    obtain rfl := Option.some.inj hstep
    refine h.of_goto [.scan path1 path2 (.entries order)] hstack (h.walk.goto _) (List.forall_mem_singleton.2 ?_) ?_
    · refine ⟨hvisits.mirrors, fun _ hclear => hvisits.dir ScanPc.noConfusion hclear, ?_⟩
      intro es hes e he
      cases hes
      rcases mem_entries.1 (hperm.mem_iff.1 he) with rfl | rfl | ⟨n, -, rfl⟩
      · exact .inl (.inl rfl)
      · exact .inl (.inr rfl)
      · exact .inr ⟨n, rfl⟩
    · rintro d hd ⟨n, hle⟩
      have hnode := h.node_above hd hle
      refine ⟨_, List.mem_singleton_self _, n, hperm.mem_iff.2 (mem_entries.2 (.inr (.inr ⟨n, ?_, ?_⟩))), hle⟩
      · rw [hnode]
        exact Option.some_ne_none _
      · rw [hnode, decide_eq_true rfl]
  · cases hstep

/-- The loop over the entries: a directory is left to the call for it, and nothing is owed for another entry. -/
private theorem visit_entries {es : List Entry} {order : List Entry} {more : Nat} (h : Visit t₀ argv1 argv2 s)
    (hstack : s.daemon.stack = .scan path1 path2 (.entries es) :: rest)
    (hstep : s.step (.daemon order more) = some s') : Visit t₀ argv1 argv2 s' := by
  obtain ⟨hvisits, -⟩ := h.top hstack
  obtain ⟨x, hmirrors⟩ := hvisits.mirrors
  cases es with
  | nil =>
    rw [step_end order more hstack] at hstep
    obtain rfl := Option.some.inj hstep
    refine h.of_goto [] hstack (h.walk.goto _) (List.forall_mem_nil _) ?_
    rintro d - ⟨n, hn, -⟩
    cases hn
  | cons e es =>
    obtain ⟨he, hnamed⟩ := List.forall_mem_cons.1 (hvisits.named _ rfl)
    have hscan : (Frame.scan path1 path2 (.entries es)).Visits t₀ argv1 argv2 :=
      ⟨hvisits.mirrors, fun _ hclear => hvisits.dir ScanPc.noConfusion hclear, fun es' hes' => by
        cases hes'
        exact hnamed⟩
    have htail : ∀ d, (∀ n : Name, e = ⟨n.text, true⟩ → ¬ resolve path1 ++ [n] <+: d) →
        (ScanPc.entries (e :: es)).Owes (resolve path1) d →
          ∃ g ∈ [Frame.scan path1 path2 (.entries es)], g.Owes d := by
      rintro d hnot ⟨n, hn, hle⟩
      rcases List.mem_cons.1 hn with heq | hn
      · exact absurd hle (hnot n heq.symm)
      · exact ⟨_, List.mem_singleton_self _, n, hn, hle⟩
    rcases he with hdots | ⟨n, hname⟩
    · rw [step_skip order more hstack hdots] at hstep
      obtain rfl := Option.some.inj hstep
      refine h.of_goto [.scan path1 path2 (.entries es)] hstack (h.walk.goto _) (List.forall_mem_singleton.2 hscan) ?_
      refine fun d _ => htail d fun n heq => ?_
      rw [heq] at hdots
      exact absurd hdots n.not_dots
    · obtain ⟨name, isDir⟩ := e
      obtain rfl : name = n.text := hname
      cases isDir with
      | true =>
        rw [step_enter order more hstack] at hstep
        obtain rfl := Option.some.inj hstep
        have hchild : (Frame.scan (join path1 n.text) (join path2 n.text) .start).Visits t₀ argv1 argv2 :=
          ⟨⟨_, hmirrors.join n⟩, fun hpc => absurd rfl hpc, fun es' hes' => ScanPc.noConfusion hes'⟩
        refine h.of_goto [.scan (join path1 n.text) (join path2 n.text) .start, .scan path1 path2 (.entries es)] hstack
          (h.walk.goto _) (List.forall_mem_cons.2 ⟨hchild, List.forall_mem_singleton.2 hscan⟩) ?_
        rintro d - ⟨m, hm, hle⟩
        rcases List.mem_cons.1 hm with heq | hm
        · obtain rfl : m = n := Name.text_inj (congrArg Entry.name heq)
          refine ⟨_, List.mem_cons_self .., ?_⟩
          rwa [← resolve_join] at hle
        · exact ⟨_, List.mem_cons_of_mem _ (List.mem_singleton_self _), m, hm, hle⟩
      | false =>
        rw [step_copy order more hstack] at hstep
        obtain rfl := Option.some.inj hstep
        refine h.of_goto [.scan path1 path2 (.entries es)] hstack ?_ (List.forall_mem_singleton.2 hscan) ?_
        · rw [resolve_join path2, hmirrors.backup, List.append_assoc]
          exact h.walk.of_copy _ (List.append_ne_nil_of_right_ne_nil _ (List.cons_ne_nil _ _)) _ _
        · exact fun d _ => htail d fun m heq => Bool.noConfusion (congrArg Entry.isDir heq)

/-- A step of the scan, until it has come to an end. -/
theorem visit_step {a : SysAction} (hsafe : s.Safe) (h : Visit t₀ argv1 argv2 s) (hscanned : ¬ s.Scanned)
    (hstep : s.step a = some s') : Visit t₀ argv1 argv2 s' := by
  obtain ⟨fs, hfs, hvisits⟩ := h.frames
  cases fs with
  | nil => exact absurd hfs hscanned
  | cons f fs =>
    obtain ⟨hf, -⟩ := List.forall_mem_cons.1 hvisits
    cases f with
    | events | caller => exact absurd hf id
    | scan path1 path2 pc =>
      cases a with
      | change c =>
        simp only [System.step, (next_of_scan hfs).2, Bool.false_eq_true, false_and, if_false] at hstep
        cases hstep
      | daemon order more =>
        cases pc with
        | start => exact visit_start h hfs hstep
        | mkdir =>
          have hf : ScanPc.mkdir.Visits t₀ argv1 argv2 path1 path2 := hf
          obtain ⟨x, hmirrors⟩ := hf.mirrors
          rw [step_mkdir order more hfs] at hstep
          obtain rfl := Option.some.inj hstep
          refine h.of_goto [.scan path1 path2 .watch] hfs ?_ (List.forall_mem_singleton.2 ?_) ?_
          · rw [hmirrors.backup]
            exact h.walk.of_mkdir _ _
          · exact ⟨hf.mirrors, fun _ => hf.dir ScanPc.noConfusion, fun es hes => ScanPc.noConfusion hes⟩
          · exact fun d _ hle => ⟨_, List.mem_singleton_self _, hle⟩
        | watch => exact visit_watch h hsafe hfs hstep
        | readdir => exact visit_readdir h hfs hstep
        | entries es => exact visit_entries h hfs hstep

end Visit

private theorem visit_boot {argv1 argv2 : Str} {t : Tree} {s₀ : System} (h₀ : boot argv1 argv2 t = some s₀) :
    Visit t argv1 argv2 s₀ ∧ s₀.watches = [] := by
  obtain ⟨d, hmain, rfl⟩ := Option.map_eq_some_iff.1 h₀
  obtain ⟨-, rfl⟩ := main_eq_some hmain
  refine ⟨⟨⟨rfl, fun _ _ => rfl, id⟩, ⟨[.scan argv1 argv2 .start], rfl, List.forall_mem_singleton.2 ?_⟩, ?_,
    List.nodup_nil, List.forall_mem_nil _⟩, rfl⟩
  · refine ⟨⟨[], ⟨?_, ?_⟩⟩, fun hpc => absurd rfl hpc, fun es hes => ScanPc.noConfusion hes⟩
    · rw [List.append_nil]
    · rw [List.append_nil]
  · exact fun d hd => .inr ⟨_, List.mem_cons_self .., hd.source⟩

/-! ### The tables -/

section Tables

variable {s s' : System} {a : SysAction} {t : Tree} {argv1 argv2 : Str} {s₀ : System}

private theorem boundedStep_eq_some (h : s.boundedStep a = some s') : s.overruns = false ∧ s.step a = some s' := by
  unfold System.boundedStep at h
  split at h
  · cases h
  · rename_i hover
    exact ⟨Bool.eq_false_iff.2 hover, h⟩

private theorem boundedStep_eq (h : s.overruns = false) : s.boundedStep = s.step := by
  funext a
  rw [System.boundedStep, h, if_neg Bool.false_ne_true]

private theorem leads_of_bounded {I Q : System → Prop} (h : Leads System.boundedStep I Q s) :
    Leads System.step I Q s := by
  have heq : ∀ s a s', I s → System.boundedStep s a = some s' → System.step s = System.boundedStep s := by
    intro s a s' _ hstep
    rw [boundedStep_eq (boundedStep_eq_some hstep).1]
  exact h.congr heq

/-- With fewer than 100 directories to scan there is an entry in the tables for the next one. -/
private theorem overruns_eq_false (hfew : FewDirs t argv1 argv2) (h : Visit t argv1 argv2 s) (hsafe : s.Safe) :
    s.overruns = false := by
  unfold System.overruns
  split
  · rename_i path k hnext
    have hscanned : ¬ s.Scanned := by
      intro hscanned
      rw [State.next, hscanned] at hnext
      cases hnext
    by_cases hdir : s.tree.node (resolve path) = none
    · simp [hdir]
    · rw [Bool.and_eq_false_iff]
      right
      rw [decide_eq_false_iff_not, Nat.not_le]
      -- the watches after this step are directories to scan as well
      have hstep : s.step (.daemon [] 0) = some { s with
          daemon := k (some (watch s.watches (resolve path)).2)
          watches := (watch s.watches (resolve path)).1 } := by
        simp only [System.step, hnext, if_neg hdir]
      have hvisit := visit_step hsafe h hscanned hstep
      exact Nat.lt_of_le_of_lt (watch_le_length ..) (hfew _ hvisit.once hvisit.watched)
  · rfl

/-- Only `inotify_add_watch` makes a watch. -/
private theorem watches_step (hstep : s.step a = some s') : s'.watches = s.watches ∨
    ∃ path k, s.daemon.next = .addWatch path k ∧ s.tree.node (resolve path) ≠ none ∧
      s'.watches = (watch s.watches (resolve path)).1 := by
  cases a with
  | daemon order more =>
    simp only [System.step] at hstep
    split at hstep
    case h_3 path k hnext =>
      split at hstep
      · obtain rfl := Option.some.inj hstep
        exact .inl rfl
      · rename_i hdir
        obtain rfl := Option.some.inj hstep
        exact .inr ⟨path, k, hnext, hdir, rfl⟩
    all_goals first
      | (split at hstep <;> cases hstep <;> exact .inl rfl)
      | (cases hstep <;> exact .inl rfl)
  | change c =>
    simp only [System.step] at hstep
    split at hstep
    · left
      unfold System.change at hstep
      split at hstep
      case h_4 =>
        split at hstep
        · split at hstep <;> cases hstep
          rfl
        · cases hstep
      all_goals
        split at hstep <;> cases hstep
        rfl
    · cases hstep

private theorem few_watches_step (h : s.watches.length < tableSize) (hstep : s.boundedStep a = some s') :
    s'.watches.length < tableSize := by
  obtain ⟨hover, hstep⟩ := boundedStep_eq_some hstep
  rcases watches_step hstep with heq | ⟨path, k, hnext, hdir, heq⟩
  · rwa [heq]
  · rw [heq]
    apply length_watch_lt h
    simpa [System.overruns, hnext, hdir] using hover

/-- A scan that leads to the end has room in the tables, if there are fewer than 100 directories to scan. -/
theorem leads_of_fewDirs (h₀ : boot argv1 argv2 t = some s₀) (hfew : FewDirs t argv1 argv2)
    (h : Leads System.step System.Safe System.Scanned s₀) :
    Leads System.boundedStep System.Safe System.Scanned s₀ := by
  have hvisit := h.and_invariant (fun s a t hI hs hQ hstep => visit_step hI hs hQ hstep) (visit_boot h₀).1
  have hbounded := hvisit.congr fun s a t hI _ => boundedStep_eq (overruns_eq_false hfew hI.2 hI.1)
  exact hbounded.mono (fun s hs => hs.1) fun s hs => hs.1

/-- At the end all directories that were to be scanned are in the tables. -/
theorem fewDirs_of_leads (h₀ : boot argv1 argv2 t = some s₀)
    (h : Leads System.boundedStep System.Safe System.Scanned s₀) : FewDirs t argv1 argv2 := by
  obtain ⟨hvisit₀, hnil⟩ := visit_boot h₀
  have hlen₀ : s₀.watches.length < tableSize := by
    rw [hnil]
    decide
  have hvisit := h.and_invariant
    (fun s a s' hI hs hQ hstep => visit_step hI hs hQ (boundedStep_eq_some hstep).2) hvisit₀
  have hlen := hvisit.and_invariant (fun s a s' _ hs _ hstep => few_watches_step hs hstep) hlen₀
  obtain ⟨s, ⟨hscanned, hvisit⟩, hlen⟩ := hlen.exists
  intro ds hnodup hds
  have hsub : ds ⊆ s.watches := by
    intro d hd
    rcases hvisit.owed d (hds d hd) with hmem | ⟨f, hf, howed⟩
    · exact hmem
    · rw [hscanned] at hf
      obtain rfl := List.mem_singleton.1 hf
      exact absurd howed id
  exact Nat.lt_of_le_of_lt (hnodup.subperm hsub).length_le hlen

end Tables

/-- For every finite source tree and every two different arguments: the arguments fit their buffers and the scan comes
to an end without getting into the backup directory, and without leaving the tables, if and only if both arguments have
fewer than 100 characters, the scan is guarded and there are fewer than 100 directories to scan. -/
theorem safe_iff {argv1 argv2 : Str} (hne : argv1 ≠ argv2) {t : Tree} {N : Nat}
    (hfin : ∀ x, t.node (resolve argv1 ++ x) ≠ none → x.length ≤ N) :
    (∃ s₀, boundedBoot argv1 argv2 t = some s₀ ∧ Leads System.boundedStep System.Safe System.Scanned s₀) ↔
      (argv1.length < argvSize ∧ argv2.length < argvSize) ∧ Guarded t argv1 argv2 ∧ FewDirs t argv1 argv2 := by
  constructor
  · rintro ⟨s₀, h₀, h⟩
    obtain ⟨hfits, h₀⟩ := boundedBoot_eq_some h₀
    exact ⟨hfits, guarded_of_leads h₀ (leads_of_bounded h), fewDirs_of_leads h₀ h⟩
  · rintro ⟨hfits, hguarded, hfew⟩
    have hmain : boundedMain argv1 argv2 = main argv1 argv2 := if_pos hfits
    obtain ⟨s₀, h₀⟩ : ∃ s₀, boot argv1 argv2 t = some s₀ := by
      simp only [boot, main, if_neg hne, Option.map_some, Option.some.injEq, exists_eq']
    refine ⟨s₀, ?_, leads_of_fewDirs h₀ hfew ((leads_iff_guarded h₀ hfin).2 hguarded)⟩
    rw [boundedBoot, hmain]
    exact h₀

/-- A tree with the directory `a` only. -/
def treeA : Tree := FileTree.empty.set [⟨[chr 'a'], by decide⟩] .dir

private theorem treeA_bounded : treeA.Bounded 1 := (FileTree.bounded_empty 1).set (by decide) .dir

private theorem treeA_fewDirs (argv2 : Str) : FewDirs treeA [chr 'a'] argv2 := by
  intro ds hnodup hds
  have hsub : ds ⊆ [resolve [chr 'a']] := by
    intro d hd
    obtain ⟨⟨x, rfl⟩, -, hdir⟩ := hds d hd
    have hlen := treeA_bounded _ (by rw [hdir]; exact Option.some_ne_none _)
    rw [List.length_append, show (resolve [chr 'a']).length = 1 from rfl] at hlen
    obtain rfl : x = [] := List.length_eq_zero_iff.1 (by omega)
    rw [List.append_nil]
    exact List.mem_singleton_self _
  exact Nat.lt_of_le_of_lt (hnodup.subperm hsub).length_le (by decide)

/-- `a` and the backup directory `a/b` in it. -/
theorem safe_iff_inside : ∃ s₀, boundedBoot [chr 'a'] [chr 'a', chr '/', chr 'b'] treeA = some s₀ ∧
    Leads System.boundedStep System.Safe System.Scanned s₀ := by
  refine (safe_iff (by decide) (treeA_bounded.below _)).2 ⟨by decide, .inr ⟨by decide, fun y heq => .inl ?_⟩,
    treeA_fewDirs _⟩
  have hy : y = [⟨[chr 'b'], by decide⟩] := by
    have hb : resolve [chr 'a', chr '/', chr 'b'] = resolve [chr 'a'] ++ [⟨[chr 'b'], by decide⟩] := by decide
    rw [hb] at heq
    exact List.append_cancel_left heq
  rw [hy]
  rfl

/-- The same backup directory with a slash at the end: the buffers and the tables are large enough, and the backup
directory is scanned. -/
theorem scans_backup : ∃ s₀, boundedBoot [chr 'a'] [chr 'a', chr '/', chr 'b', chr '/'] treeA = some s₀ ∧
    FewDirs treeA [chr 'a'] [chr 'a', chr '/', chr 'b', chr '/'] ∧
    ¬ Leads System.boundedStep System.Safe System.Scanned s₀ := by
  have h₀ : boot [chr 'a'] [chr 'a', chr '/', chr 'b', chr '/'] treeA = some ((boot [chr 'a']
    [chr 'a', chr '/', chr 'b', chr '/'] treeA).get rfl) := (Option.some_get _).symm
  refine ⟨_, h₀, treeA_fewDirs _, fun h => ?_⟩
  rcases guarded_of_leads h₀ (leads_of_bounded h) with hdir | ⟨-, hguard⟩
  · exact hdir (by decide)
  · rcases hguard [⟨[chr 'b'], by decide⟩] (by decide) with hspell | hblocked
    · exact absurd hspell (by decide)
    · exact hblocked.not_made (by decide) (by decide)

end UnixTasks.Daemon
