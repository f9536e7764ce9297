import UnixTasks.Daemon.Scan

/-!
# The first scan

The source directory is scanned into a backup directory that is not there yet and lies outside of it.  Every step leaves
in the backup directory only what is at the same place in the source directory, nothing is changed elsewhere, and every
directory is watched once.  At the end nothing is left to do (`Covered`), so the backup directory has everything.

* (`Frame.Made`) what the functions that are running rely on in the backup directory;
* (`Copied`, `copied_scan`) the invariant;
* (`initial_scan`) the scan comes to an end, and then the backup directory is the source directory.
-/

namespace UnixTasks.Daemon

open ActionSystem CChar

/-- What a scan relies on: there is a directory to make the new one in, or the new one has been made; and the entries
that are no directories are files. -/
def ScanPc.Made (t₀ t : Tree) (p q : List Name) : ScanPc → Prop
  | .start | .mkdir => t.node q.dropLast = some .dir
  | .watch | .readdir => t.node q = some .dir
  | .entries es => t.node q = some .dir ∧
      ∀ n : Name, ⟨n.text, false⟩ ∈ es → ∃ bytes, t₀.node (p ++ [n]) = some (.file bytes)

/-- The function is a scan. -/
def Frame.Made (t₀ t : Tree) : Frame → Prop
  | .scan path1 path2 pc => pc.Made t₀ t (resolve path1) (resolve path2)
  | .events .. | .caller .. => False

structure Copied (t₀ : Tree) (source backup : List Name) (s : System) : Prop where
  covered : Covered source backup s
  outside : ∀ p, ¬ backup <+: p → s.tree.node p = t₀.node p
  inside : ∀ x, s.tree.node (backup ++ x) = none ∨ s.tree.node (backup ++ x) = t₀.node (source ++ x)
  scans : ∃ fs, s.daemon.stack = fs ++ [.caller none false] ∧ ∀ f ∈ fs, f.Made t₀ s.tree
  dirs : ∀ x, source ++ x ∈ s.watches → s.tree.node (backup ++ x) = some .dir
  once : s.watches.Nodup
  quiet : s.queue = []

theorem Frame.Made.mono {t₀ t t' : Tree} {f : Frame} (h : f.Made t₀ t)
    (ht : ∀ p, t.node p = some .dir → t'.node p = some .dir) : f.Made t₀ t' := by
  cases f with
  | scan path1 path2 pc =>
    cases pc with
    | entries es => exact ⟨ht _ h.1, h.2⟩
    | start | mkdir | watch | readdir => exact ht _ h
  | events | caller => exact h

section Copied

variable {t₀ : Tree} {source backup : List Name} {s : System} {path1 path2 : Str} {rest : List Frame}

/-- The two directories have nothing in common. -/
structure Apart (source backup : List Name) : Prop where
  backup_out : ¬ source <+: backup
  source_out : ¬ backup <+: source

private theorem Apart.not_prefix (h : Apart source backup) (x : List Name) : ¬ backup <+: source ++ x := by
  intro hle
  rcases List.prefix_or_prefix_of_prefix hle (List.prefix_append source x) with hle | hle
  · exact h.source_out hle
  · exact h.backup_out hle

/-- What lies in the source directory does not change. -/
private theorem Copied.source_node (h : Copied t₀ source backup s) (ha : Apart source backup) (x : List Name) :
    s.tree.node (source ++ x) = t₀.node (source ++ x) := h.outside _ (ha.not_prefix x)

/-- The backup directory is made in a directory that is not watched, and so is everything in it. -/
private theorem Copied.not_watched (h : Copied t₀ source backup s) (ha : Apart source backup) (x : List Name) :
    (backup ++ x).dropLast ∉ s.watches := by
  intro hd
  obtain ⟨i, hi⟩ := List.mem_iff_getElem?.1 hd
  obtain ⟨y, -, -, heq, -⟩ := h.covered.tables i _ hi
  have hle : source <+: backup ++ x := by
    refine List.IsPrefix.trans ?_ (List.dropLast_prefix _)
    rw [heq]
    exact List.prefix_append ..
  rcases List.prefix_or_prefix_of_prefix hle (List.prefix_append backup x) with hle | hle
  · exact ha.backup_out hle
  · exact ha.source_out hle

private theorem notify_of_not_mem {watches : List (List Name)} {mask : Mask} {p : List Name} {queue : List Event}
    (h : p.dropLast ∉ watches) : notify watches mask p queue = queue := by
  unfold notify
  split
  · rw [if_neg h]
  · rfl

private theorem Copied.notifyMkdir_eq (h : Copied t₀ source backup s) (ha : Apart source backup) (x : List Name) :
    notifyMkdir s.tree s.watches (backup ++ x) s.queue = [] := by
  unfold notifyMkdir
  rw [notify_of_not_mem (h.not_watched ha x), ite_self, h.quiet]

private theorem Copied.notifyCopy_eq (h : Copied t₀ source backup s) (ha : Apart source backup) (p x : List Name) :
    notifyCopy s.tree s.watches p (backup ++ x) s.queue = [] := by
  have hnot := h.not_watched ha x
  unfold notifyCopy
  simp only [notify_of_not_mem hnot, ite_self, h.quiet]
  split
  · rfl
  · split
    · rfl
    · rfl

/-! ### The steps of a scan -/

/-- The scan that runs, and the ones that it has been called from. -/
private theorem Copied.scans_cons (h : Copied t₀ source backup s) {pc : ScanPc}
    (hstack : s.daemon.stack = .scan path1 path2 pc :: rest) :
    pc.Made t₀ s.tree (resolve path1) (resolve path2) ∧
      ∃ fs, rest = fs ++ [.caller none false] ∧ ∀ f ∈ fs, f.Made t₀ s.tree := by
  obtain ⟨fs, hfs, hmade⟩ := h.scans
  rw [hstack] at hfs
  cases fs with
  | nil => cases hfs
  | cons f fs =>
    obtain ⟨rfl, rfl⟩ := List.cons.inj hfs
    obtain ⟨hf, hmade⟩ := List.forall_mem_cons.1 hmade
    exact ⟨hf, fs, rfl, hmade⟩

/-- Other functions go on, and the tree is the same. -/
theorem Copied.of_goto {pc : ScanPc} (h : Copied t₀ source backup s) (gs : List Frame)
    (hstack : s.daemon.stack = .scan path1 path2 pc :: rest) (hcov : Covered source backup (s.goto (gs ++ rest)))
    (hmade : ∀ g ∈ gs, g.Made t₀ s.tree) : Copied t₀ source backup (s.goto (gs ++ rest)) := by
  obtain ⟨-, fs, rfl, hfs⟩ := h.scans_cons hstack
  refine ⟨hcov, h.outside, h.inside, ⟨gs ++ fs, ?_, ?_⟩, h.dirs, h.once, h.quiet⟩
  · rw [goto_stack, List.append_assoc]
  · exact List.forall_mem_append.2 ⟨hmade, hfs⟩

/-- Something is put into the backup directory, what there is at the same place in the source directory. -/
theorem Copied.of_put {pc pc' : ScanPc} {x : List Name} {z : Node CChar} {t : Tree} {queue : List Event}
    (h : Copied t₀ source backup s)
    (hstack : s.daemon.stack = .scan path1 path2 pc :: rest)
    (hnode : t.node = Function.update s.tree.node (backup ++ x) (some z)) (hz : t₀.node (source ++ x) = some z)
    (hcov : Covered source backup { s.goto (.scan path1 path2 pc' :: rest) with tree := t, queue := queue })
    (hmade : pc'.Made t₀ t (resolve path1) (resolve path2)) (hqueue : queue = []) :
    Copied t₀ source backup { s.goto (.scan path1 path2 pc' :: rest) with tree := t, queue := queue } := by
  obtain ⟨-, fs, rfl, hfs⟩ := h.scans_cons hstack
  have hinside : ∀ y, t.node (backup ++ y) = none ∨ t.node (backup ++ y) = t₀.node (source ++ y) := by
    intro y
    by_cases hy : y = x
    · subst hy
      right
      rw [hnode, Function.update_self, hz]
    · rw [hnode, Function.update_of_ne fun heq => hy (List.append_cancel_left heq)]
      exact h.inside y
  have hdirs : ∀ p, s.tree.node p = some .dir → t.node p = some .dir := by
    intro p hp
    by_cases heq : p = backup ++ x
    · subst heq
      have hold := h.inside x
      rw [hp, hz] at hold
      rw [hnode, Function.update_self]
      exact (hold.resolve_left (Option.some_ne_none _)).symm
    · rw [hnode, Function.update_of_ne heq, hp]
  refine ⟨hcov, ?_, hinside, ⟨.scan path1 path2 pc' :: fs, rfl, ?_⟩, ?_, h.once, hqueue⟩
  · intro p hp
    have hne : p ≠ backup ++ x := by
      rintro rfl
      exact hp (List.prefix_append ..)
    have hsame : t.node p = s.tree.node p := by rw [hnode, Function.update_of_ne hne]
    exact hsame.trans (h.outside p hp)
  · exact List.forall_mem_cons.2 ⟨hmade, fun f hf => (hfs f hf).mono hdirs⟩
  · exact fun y hy => hdirs _ (h.dirs y hy)

/-- The copy of a file fits, and makes the file. -/
theorem Copied.fits {n : Name} {es : List Entry} (h : Copied t₀ source backup s)
    (hstack : s.daemon.stack = .scan path1 path2 (.entries (⟨n.text, false⟩ :: es)) :: rest) :
    ∃ x bytes, Mirrors source backup (join path1 n.text) (join path2 n.text) (x ++ [n]) ∧
      t₀.node (source ++ (x ++ [n])) = some (.file bytes) ∧ s.tree.CanPut (backup ++ (x ++ [n])) ∧
      (content s.tree (backup ++ (x ++ [n]))).length ≤ bytes.length := by
  obtain ⟨x, hmirrors, -, -⟩ := h.covered.sound hstack
  obtain ⟨hdir, hfiles⟩ := (h.scans_cons hstack).1
  obtain ⟨bytes, hfile⟩ := hfiles n (List.mem_cons_self ..)
  rw [hmirrors.source, List.append_assoc] at hfile
  rw [hmirrors.backup] at hdir
  have hold := h.inside (x ++ [n])
  rw [hfile] at hold
  refine ⟨x, bytes, hmirrors.join n, hfile, ?_, ?_⟩
  · refine ⟨?_, ?_, ?_⟩
    · rw [← List.append_assoc]
      exact List.append_ne_nil_of_right_ne_nil _ (List.cons_ne_nil _ _)
    · rw [← List.append_assoc, List.dropLast_concat]
      exact hdir
    · rcases hold with hold | hold
      · rw [hold]
        exact Option.some_ne_none _ |>.symm
      · rw [hold]
        simp
  · unfold content
    rcases hold with hold | hold
    · rw [hold]
      exact Nat.zero_le _
    · rw [hold]

theorem Copied.copyFits (h : Copied t₀ source backup s) (ha : Apart source backup) : s.copyFits = true := by
  unfold System.copyFits
  split
  · rename_i path11 path22 k hnext
    rcases copy_cases hnext with ⟨path1, path2, e, es, rest, hstack, rfl, rfl⟩ | ⟨e, es, pc, rest, _, _, hstack, -⟩
    · rw [(next_of_scan hstack).1] at hnext
      simp only [State.monitorDirectory] at hnext
      split at hnext
      · cases hnext
      · rename_i hdots
        split at hnext
        · cases hnext
        · rename_i hisDir
          obtain ⟨_, _, _, _, hes⟩ := h.covered.sound hstack
          obtain ⟨n, hname, -⟩ := (hes e (List.mem_cons_self ..)).resolve_left hdots
          obtain ⟨name, isDir⟩ := e
          obtain rfl : name = n.text := hname
          obtain rfl : isDir = false := by simpa using hisDir
          obtain ⟨x, bytes, hmirrors, hfile, hput, hlen⟩ := h.fits hstack
          simp only [hmirrors.source, hmirrors.backup, h.source_node ha, hfile]
          exact decide_eq_true ⟨hput, hlen⟩
    · obtain ⟨fs, hfs, hmade⟩ := h.scans
      rw [hstack] at hfs
      cases fs with
      | nil => cases hfs
      | cons f fs =>
        obtain ⟨rfl, -⟩ := List.cons.inj hfs
        exact absurd (hmade _ (List.mem_cons_self ..)) id
  · rfl

/-- `mkdir`, from an empty place or a directory that has been made before. -/
private theorem Copied.mkdir_eq {x : List Name} (h : Copied t₀ source backup s)
    (hdir : t₀.node (source ++ x) = some .dir) (hparent : s.tree.node (backup ++ x).dropLast = some .dir) :
    (mkdir s.tree (backup ++ x)).node = Function.update s.tree.node (backup ++ x) (some .dir) := by
  rcases h.inside x with hnone | hold
  · have hne : backup ++ x ≠ [] := by
      intro heq
      rw [heq, s.tree.root] at hnone
      cases hnone
    apply mkdir_node hnone ⟨hne, hparent, ?_⟩
    rw [hnone]
    exact (Option.some_ne_none _).symm
  · rw [hdir] at hold
    have hnot : ¬ (s.tree.node (backup ++ x) = none ∧ s.tree.CanPut (backup ++ x)) := fun hcan => hcan.2.not_dir hold
    rw [mkdir_of_not hnot, ← hold, Function.update_eq_self]

/-- The directory is watched, and has been made. -/
theorem Copied.of_watch {x : List Name} (h : Copied t₀ source backup s) (hmirrors : Mirrors source backup path1 path2 x)
    (hstack : s.daemon.stack = .scan path1 path2 .watch :: rest) :
    Copied t₀ source backup { s with
      daemon := { s.daemon.addInotify path1 path2 (some (watch s.watches (resolve path1)).2) with
        stack := .scan path1 path2 .readdir :: rest }
      watches := (watch s.watches (resolve path1)).1 } := by
  obtain ⟨hdir, fs, rfl, hfs⟩ := h.scans_cons hstack
  refine ⟨h.covered.of_watch hstack, h.outside, h.inside, ⟨.scan path1 path2 .readdir :: fs, rfl, ?_⟩, ?_,
    nodup_watch _ h.once, h.quiet⟩
  · exact List.forall_mem_cons.2 ⟨hdir, hfs⟩
  · intro y hy
    obtain ⟨-, -, -, -, -, hmem⟩ := watch_spec s.watches (resolve path1)
    rcases hmem _ hy with hy | heq
    · exact h.dirs y hy
    · rw [hmirrors.source] at heq
      obtain rfl := List.append_cancel_left heq
      rw [← hmirrors.backup]
      exact hdir

/-- What `readdir` gives as no directory is a file. -/
private theorem Copied.made_entries {x : List Name} (h : Copied t₀ source backup s) (ha : Apart source backup)
    (hmirrors : Mirrors source backup path1 path2 x) (hdir : s.tree.node (resolve path2) = some .dir)
    {order : List Entry} (hperm : order.Perm (entries s.tree (resolve path1))) :
    (ScanPc.entries order).Made t₀ s.tree (resolve path1) (resolve path2) := by
  refine ⟨hdir, fun n hn => ?_⟩
  rcases mem_entries.1 (hperm.mem_iff.1 hn) with heq | heq | ⟨m, hm, heq⟩
  · exact absurd (.inl (congrArg Entry.name heq)) n.not_dots
  · exact absurd (.inr (congrArg Entry.name heq)) n.not_dots
  · obtain rfl : n = m := Name.text_inj (congrArg Entry.name heq)
    have hnot : s.tree.node (resolve path1 ++ [n]) ≠ some .dir := by
      have hisDir := congrArg Entry.isDir heq
      simpa using hisDir.symm
    rw [hmirrors.source, List.append_assoc] at hm hnot ⊢
    rw [h.source_node ha] at hm hnot
    cases hnode : t₀.node (source ++ (x ++ [n])) with
    | none => exact absurd hnode hm
    | some z =>
      cases z with
      | dir => exact absurd hnode hnot
      | file bytes => exact ⟨bytes, rfl⟩

/-- The loop over the entries. -/
private theorem copied_entries {es : List Entry} {order : List Entry} {more : Nat} {s' : System}
    (h : Copied t₀ source backup s) (ha : Apart source backup)
    (hstack : s.daemon.stack = .scan path1 path2 (.entries es) :: rest)
    (hstep : s.step (.daemon order more) = some s') : Copied t₀ source backup s' := by
  have hcov := covered_scan h.covered ha.backup_out (h.copyFits ha) hstack hstep
  obtain ⟨_, _, _, _, hes⟩ := h.covered.sound hstack
  obtain ⟨hdir, hfiles⟩ := (h.scans_cons hstack).1
  cases es with
  | nil =>
    rw [step_end order more hstack] at hstep
    obtain rfl := Option.some.inj hstep
    exact h.of_goto [] hstack hcov (List.forall_mem_nil _)
  | cons e es =>
    have hmade : (Frame.scan path1 path2 (.entries es)).Made t₀ s.tree :=
      ⟨hdir, fun n hn => hfiles n (List.mem_cons_of_mem _ hn)⟩
    rcases hes e (List.mem_cons_self ..) with hdots | ⟨n, hname, -⟩
    · rw [step_skip order more hstack hdots] at hstep
      obtain rfl := Option.some.inj hstep
      exact h.of_goto [.scan path1 path2 (.entries es)] hstack hcov (List.forall_mem_singleton.2 hmade)
    · obtain ⟨name, isDir⟩ := e
      obtain rfl : name = n.text := hname
      cases isDir with
      | true =>
        rw [step_enter order more hstack] at hstep
        obtain rfl := Option.some.inj hstep
        have hchild : (Frame.scan (join path1 n.text) (join path2 n.text) .start).Made t₀ s.tree := by
          show s.tree.node (resolve (join path2 n.text)).dropLast = some .dir
          rw [resolve_join, List.dropLast_concat, hdir]
        exact h.of_goto [.scan (join path1 n.text) (join path2 n.text) .start, .scan path1 path2 (.entries es)] hstack
          hcov (List.forall_mem_cons.2 ⟨hchild, List.forall_mem_singleton.2 hmade⟩)
      | false =>
        obtain ⟨x, bytes, hmirrors, hfile, hput, hlen⟩ := h.fits hstack
        rw [step_copy order more hstack] at hstep
        obtain rfl := Option.some.inj hstep
        rw [hmirrors.source, hmirrors.backup] at hcov ⊢
        -- the copy is written to a new file, or over one that is not longer
        obtain ⟨out, hnode, hread, -⟩ := copy_node (p := source ++ (x ++ [n])) hput
        have hout : out = bytes := by
          rw [hread bytes (by rw [h.source_node ha, hfile]), copyLoop_eq_self_iff.2 hlen]
        rw [hout] at hnode
        refine h.of_put hstack hnode hfile hcov ⟨?_, hmade.2⟩ (h.notifyCopy_eq ha _ _)
        have hne : resolve path2 ≠ backup ++ (x ++ [n]) := by
          intro heq
          rw [heq] at hdir
          exact hput.not_dir hdir
        rw [hnode, Function.update_of_ne hne, hdir]

/-- Every statement of a scan keeps the invariant. -/
theorem copied_scan {pc : ScanPc} {order : List Entry} {more : Nat} {s' : System} (h : Copied t₀ source backup s)
    (ha : Apart source backup) (hstack : s.daemon.stack = .scan path1 path2 pc :: rest)
    (hstep : s.step (.daemon order more) = some s') : Copied t₀ source backup s' := by
  have hcov := covered_scan h.covered ha.backup_out (h.copyFits ha) hstack hstep
  obtain ⟨x, hmirrors, hdir, -⟩ := h.covered.sound hstack
  have hmade := (h.scans_cons hstack).1
  have hopen : s.tree.node (resolve path1) = some .dir := by rw [hmirrors.source, hdir]
  cases pc with
  | start =>
    have hguard : path1 ≠ s.daemon.pathArgv2 := by
      rintro rfl
      apply ha.backup_out
      rw [← h.covered.backup_eq, hmirrors.source]
      exact List.prefix_append ..
    rw [step_open order more hstack hguard hopen] at hstep
    obtain rfl := Option.some.inj hstep
    exact h.of_goto [.scan path1 path2 .mkdir] hstack hcov (List.forall_mem_singleton.2 hmade)
  | mkdir =>
    rw [step_mkdir order more hstack] at hstep
    obtain rfl := Option.some.inj hstep
    rw [h.source_node ha] at hdir
    rw [hmirrors.backup] at hcov ⊢
    have hparent : s.tree.node (backup ++ x).dropLast = some .dir := by
      rw [← hmirrors.backup]
      exact hmade
    have hnode := h.mkdir_eq hdir hparent
    refine h.of_put hstack hnode hdir hcov ?_ (h.notifyMkdir_eq ha x)
    show (mkdir s.tree (backup ++ x)).node (resolve path2) = some .dir
    rw [hnode, hmirrors.backup, Function.update_self]
  | watch =>
    rw [step_watch order more hstack hopen] at hstep
    obtain rfl := Option.some.inj hstep
    exact h.of_watch hmirrors hstack
  | readdir =>
    rw [step_readdir order more hstack] at hstep
    split at hstep
    · rename_i hperm
      obtain rfl := Option.some.inj hstep
      exact h.of_goto [.scan path1 path2 (.entries order)] hstack hcov
        (List.forall_mem_singleton.2 (h.made_entries ha hmirrors hmade hperm))
    · cases hstep
  | entries es => exact copied_entries h ha hstack hstep

/-- Until `monitor_directory` has returned to `main`, a scan is running. -/
theorem copied_step {a : SysAction} {s' : System} (h : Copied t₀ source backup s) (ha : Apart source backup)
    (hscanned : ¬ s.Scanned) (hstep : s.step a = some s') : Copied t₀ source backup s' := by
  obtain ⟨fs, hfs, hmade⟩ := h.scans
  cases fs with
  | nil => exact absurd hfs hscanned
  | cons f fs =>
    cases f with
    | scan path1 path2 pc =>
      cases a with
      | daemon order more => exact copied_scan h ha hfs hstep
      | change c =>
        simp only [System.step, (next_of_scan hfs).2, Bool.false_eq_true, false_and, if_false] at hstep
        cases hstep
    | events | caller => exact absurd (hmade _ (List.mem_cons_self ..)) id

/-! ### The result -/

/-- The backup directory is the source directory, nothing else has changed, and every directory is watched once. -/
structure Mirrored (t₀ : Tree) (source backup : List Name) (s : System) : Prop where
  copied : ∀ x, s.tree.node (backup ++ x) = t₀.node (source ++ x)
  outside : ∀ p, ¬ backup <+: p → s.tree.node p = t₀.node p
  once : s.watches.Nodup
  watched : ∀ d, d ∈ s.watches ↔ source <+: d ∧ t₀.node d = some .dir

private theorem Copied.mirrored (h : Copied t₀ source backup s) (ha : Apart source backup) (hscanned : s.Scanned) :
    Mirrored t₀ source backup s := by
  have hsettled : ∀ f ∈ s.work, f.Settled := by
    rw [System.work, h.quiet, hscanned]
    exact List.forall_mem_cons.2 ⟨rfl, List.forall_mem_singleton.2 trivial⟩
  have hbacked := h.covered.backedUp hsettled
  rw [System.BackedUp, System.source, System.backup, h.covered.source_eq, h.covered.backup_eq] at hbacked
  have hwatched : ∀ x, t₀.node (source ++ x) = some .dir → source ++ x ∈ s.watches := by
    intro x hx
    rw [← h.source_node ha] at hx
    exact h.covered.watched_of_settled hsettled x hx
  refine ⟨?_, h.outside, h.once, ?_⟩
  · intro x
    cases hx : t₀.node (source ++ x) with
    | none =>
      have hold := h.inside x
      rwa [hx, or_self] at hold
    | some z =>
      cases z with
      | dir => exact h.dirs x (hwatched x hx)
      | file bytes =>
        apply hbacked
        rw [h.source_node ha, hx]
  · intro d
    constructor
    · intro hd
      obtain ⟨i, hi⟩ := List.mem_iff_getElem?.1 hd
      obtain ⟨x, -, -, rfl, -⟩ := h.covered.tables i d hi
      refine ⟨List.prefix_append .., ?_⟩
      rw [← h.source_node ha]
      exact h.covered.watched _ hd
    · rintro ⟨⟨x, rfl⟩, hdir⟩
      exact hwatched x hdir

end Copied

private theorem copied_boot {argv1 argv2 : Str} {t₀ : Tree} {s₀ : System} (h₀ : boot argv1 argv2 t₀ = some s₀)
    (hdir : t₀.node (resolve argv1) = some .dir) (hnone : t₀.node (resolve argv2) = none)
    (hparent : t₀.node (resolve argv2).dropLast = some .dir) :
    Copied t₀ (resolve argv1) (resolve argv2) s₀ := by
  have hcov := (covered_boot h₀ hdir).1
  obtain ⟨d, hmain, rfl⟩ := Option.map_eq_some_iff.1 h₀
  obtain ⟨-, rfl⟩ := main_eq_some hmain
  refine ⟨hcov, fun _ _ => rfl, fun x => .inl (t₀.node_append_of_none hnone x), ⟨[.scan argv1 argv2 .start], rfl, ?_⟩,
    ?_, List.nodup_nil, rfl⟩
  · exact List.forall_mem_singleton.2 hparent
  · exact fun x hx => absurd hx List.not_mem_nil

/-- For every finite source directory and every backup path outside of it that has no node yet, and a directory to be
made in: `monitor_directory` returns, and then the backup directory is the source directory, nothing else has changed,
and every directory of the source directory is watched once. -/
theorem initial_scan {argv1 argv2 : Str} {t₀ : Tree} {s₀ : System} (h₀ : boot argv1 argv2 t₀ = some s₀)
    (hdir : t₀.node (resolve argv1) = some .dir) {N : Nat}
    (hfin : ∀ x, t₀.node (resolve argv1 ++ x) ≠ none → x.length ≤ N) (hout : ¬ resolve argv1 <+: resolve argv2)
    (hnone : t₀.node (resolve argv2) = none) (hparent : t₀.node (resolve argv2).dropLast = some .dir) :
    Leads System.step (fun _ => True) (fun s => s.Scanned ∧ Mirrored t₀ (resolve argv1) (resolve argv2) s) s₀ := by
  have ha : Apart (resolve argv1) (resolve argv2) := by
    refine ⟨hout, ?_⟩
    rintro ⟨x, hx⟩
    have hbelow := t₀.node_append_of_none hnone x
    rw [hx, hdir] at hbelow
    cases hbelow
  have hguard : ∀ y, resolve argv1 ++ y = resolve argv2 → spell argv1 y = argv2 ∨ Blocked t₀ (resolve argv2) :=
    fun y heq => absurd (heq ▸ List.prefix_append ..) hout
  have hleads := leads_scan h₀ hfin ha.source_out hguard
  have hinv := hleads.and_invariant (fun s a t _ hs hQ hstep => copied_step hs ha hQ hstep)
    (copied_boot h₀ hdir hnone hparent)
  exact hinv.mono (fun _ _ => trivial) fun s hs => ⟨hs.1, hs.2.mirrored ha hs.1⟩

/-- A directory `p` with a file `q` and a directory `r`. -/
def treeP : Tree :=
  let p : Name := ⟨[chr 'p'], by decide⟩
  let q : Name := ⟨[chr 'q'], by decide⟩
  let r : Name := ⟨[chr 'r'], by decide⟩
  ((FileTree.empty.set [p] .dir).set [p, q] (.file [chr 'x', chr 'y'])).set [p, r] .dir

private theorem treeP_bounded : treeP.Bounded 2 :=
  (((FileTree.bounded_empty 2).set (by decide) _).set (by decide) _).set (by decide) _

theorem initial_scan_two : Leads System.step (fun _ => True)
    (fun s => s.Scanned ∧ Mirrored treeP (resolve [chr 'p']) (resolve [chr 'b']) s)
    ((boot [chr 'p'] [chr 'b'] treeP).get rfl) :=
  initial_scan (Option.some_get _).symm (by decide) (treeP_bounded.below _) (by decide) (by decide) (by decide)

end UnixTasks.Daemon
