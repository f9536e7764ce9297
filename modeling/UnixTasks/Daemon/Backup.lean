import UnixTasks.Daemon.Coverage

/-!
# Every file has its copy, if the copies fit

A copy is written over the file that is there and nothing is cut off, so it is exact unless the file was longer
(`copyLoop_eq_self_iff`), or there can be no file.  In a run in which every copy fits, the daemon has copied every file
of the source directory whenever it waits for events and there are none.

* (`System.copyFits`) the condition on a step;
* (`covered_step`) every step keeps `Covered`;
* (`backed_up`) the result, and a run in which a copy does not fit (`not_backed_up`).
-/

namespace UnixTasks.Daemon

open ActionSystem CChar

/-- If the next step copies a file, there can be a file at the backup path, and what is in it is not longer. -/
def System.copyFits (s : System) : Bool :=
  match s.daemon.next with
  | .copy path11 path22 _ =>
    match s.tree.node (resolve path11) with
    | some (.file bytes) =>
      s.tree.CanPut (resolve path22) ∧ (content s.tree (resolve path22)).length ≤ bytes.length
    | _ => true
  | _ => true

/-- Every file of the source directory has an exact copy. -/
def System.BackedUp (s : System) : Prop :=
  ∀ x bytes, s.tree.node (s.source ++ x) = some (.file bytes) → s.tree.node (s.backup ++ x) = some (.file bytes)

/-- The daemon waits for events, and there are none. -/
def System.Idle (s : System) : Prop := s.daemon.waits = true ∧ s.queue = []

section Step

variable {source backup : List Name} {s : System}

/-! ### Copies and directories -/

/-- What is put into a watched directory is in the queue. -/
private theorem due_notify {act : EventPc → Event → Prop} {watches : List (List Name)} {mask : Mask} {p : List Name}
    {queue : List Event} (hne : p ≠ []) (hw : p.dropLast ∈ watches)
    (hact : ∀ d n, act .check (event watches mask d n)) : Due watches act p (notify watches mask p queue) .check := by
  obtain ⟨n, hmem, hat⟩ := exists_mem_notify hne hw
  exact due_check.2 ⟨_, hmem, hact _ n, hat⟩

/-- A copy that changes a file of a watched directory is in the queue. -/
private theorem due_notifyCopy {t : Tree} {watches : List (List Name)} {p q : List Name} {queue : List Event}
    (hput : t.CanPut q) (hw : q.dropLast ∈ watches)
    (h : t.node q = none ∨ ∃ b bytes, t.node p = some (.file (b :: bytes))) :
    Due watches EventPc.copies q (notifyCopy t watches p q queue) .check := by
  obtain ⟨t', hopen, -, -⟩ := openWrite_some hput
  unfold notifyCopy
  simp only [hopen, Option.isNone_some, Bool.false_eq_true, if_false]
  by_cases hp : ∃ b bytes, t.node p = some (.file (b :: bytes))
  · obtain ⟨b, bytes, hp⟩ := hp
    simp only [hp]
    exact due_notify hput.ne_nil hw fun d n => .inr (.inl rfl)
  · have hnone := h.resolve_right hp
    have hdue : Due watches EventPc.copies q (notify watches .create q queue) .check :=
      due_notify hput.ne_nil hw fun d n => .inl rfl
    simp only [hnone, if_true]
    split
    · rename_i b bytes hfile
      exact absurd ⟨b, bytes, hfile⟩ hp
    · exact hdue

/-- A copy to the backup path of a file in the source directory. -/
theorem Covered.copy (h : Covered source backup s) (hout : ¬ source <+: backup) (x : List Name) :
    Covered source backup { s with
      tree := copy s.tree (source ++ x) (backup ++ x)
      queue := notifyCopy s.tree s.watches (source ++ x) (backup ++ x) s.queue } := by
  by_cases hput : s.tree.CanPut (backup ++ x)
  · obtain ⟨out, hnode, hread, hchanged⟩ := copy_node (p := source ++ x) hput
    refine h.of_put hput hnode (fun e he => mem_notifyCopy_of_mem he) (fun e he => ?_) (by simp) ?_ ?_
    · rcases mem_of_mem_notifyCopy he with he | he
      · exact .inl he
      · exact .inr ⟨_, he⟩
    · intro bytes hz
      obtain rfl : out = bytes := by simpa using hz
      by_cases hsame : s.tree.node (backup ++ x) = some (.file out)
      · exact .inl hsame
      · refine .inr fun hw => due_notifyCopy hput hw ?_
        by_cases hnone : s.tree.node (backup ++ x) = none
        · exact .inl hnone
        · right
          apply hchanged
          rintro rfl
          exact hsame (node_eq_content hput hnone)
    · intro y bytes hy hold hfile
      obtain rfl : y = x := List.append_cancel_left hy
      have hne : source ++ y ≠ backup ++ y := by
        intro heq
        rw [List.append_cancel_right heq] at hout
        exact hout (List.prefix_refl _)
      rw [hnode, Function.update_of_ne hne] at hfile
      have hcontent : content s.tree (backup ++ y) = bytes := by rw [content, hold]
      rw [hread bytes hfile, hcontent, copyLoop_eq_self_iff.2 (le_refl _)]
  · rw [copy_of_not hput, notifyCopy, openWrite_none hput]
    exact h

/-- A directory is made at the backup path of one in the source directory. -/
theorem Covered.mkdir (h : Covered source backup s) (q : List Name) :
    Covered source backup { s with
      tree := mkdir s.tree q
      queue := notifyMkdir s.tree s.watches q s.queue } := by
  unfold notifyMkdir
  by_cases hcan : s.tree.node q = none ∧ s.tree.CanPut q
  · rw [if_pos hcan]
    refine h.of_put hcan.2 (mkdir_node hcan.1 hcan.2) (fun e he => mem_notify_of_mem he) (fun e he => ?_)
      (fun _ hw => ?_) (by simp) ?_
    · rcases mem_of_mem_notify he with he | he
      · exact .inl he
      · exact .inr ⟨_, he⟩
    · exact due_notify hcan.2.ne_nil hw fun d n => .inl rfl
    · intro x bytes _ hold
      rw [hcan.1] at hold
      cases hold
  · rw [if_neg hcan, mkdir_of_not hcan]
    exact h

/-! ### The daemon's steps -/

/-- A copy that fits, and then the functions `fs` in the place of the innermost one. -/
theorem Covered.of_copy {path11 path22 : Str} {x : List Name} {k : State}
    (h : Covered source backup s) (hout : ¬ source <+: backup) (hfits : s.copyFits = true)
    (hnext : s.daemon.next = .copy path11 path22 k) (hmirrors : Mirrors source backup path11 path22 x) :
    Covered source backup { s with
      tree := UnixTasks.Daemon.copy s.tree (resolve path11) (resolve path22)
      queue := notifyCopy s.tree s.watches (resolve path11) (resolve path22) s.queue } ∧
    ∀ bytes, (UnixTasks.Daemon.copy s.tree (resolve path11) (resolve path22)).node (source ++ x) = some (.file bytes) →
      (UnixTasks.Daemon.copy s.tree (resolve path11) (resolve path22)).node (backup ++ x) = some (.file bytes) := by
  have hne : source ++ x ≠ backup ++ x := by
    intro heq
    rw [List.append_cancel_right heq] at hout
    exact hout (List.prefix_refl _)
  simp only [System.copyFits, hnext, hmirrors.source, hmirrors.backup] at hfits
  rw [hmirrors.source, hmirrors.backup]
  refine ⟨h.copy hout x, fun bytes hfile => ?_⟩
  by_cases hput : s.tree.CanPut (backup ++ x)
  · obtain ⟨out, hnode, hread, -⟩ := copy_node (p := source ++ x) hput
    rw [hnode, Function.update_of_ne hne] at hfile
    rw [hfile] at hfits
    have hlen := (of_decide_eq_true hfits).2
    rw [hnode, Function.update_self, hread bytes hfile, copyLoop_eq_self_iff.2 hlen]
  · rw [copy_of_not hput] at hfile
    rw [hfile] at hfits
    exact absurd (of_decide_eq_true hfits).1 hput

/-- The entries after the first one: the first name is another one, or it is the same entry. -/
private theorem mem_cons_text {m n : Name} {b isDir : Bool} {es : List Entry}
    (hm : ⟨m.text, b⟩ ∈ (⟨n.text, isDir⟩ : Entry) :: es) : (m = n ∧ b = isDir) ∨ ⟨m.text, b⟩ ∈ es := by
  rcases List.mem_cons.1 hm with heq | hm
  · simp only [Entry.mk.injEq] at heq
    exact .inl ⟨Name.text_inj heq.1, heq.2⟩
  · exact .inr hm

section Entries

variable {path1 path2 : Str} {rest : List Frame} {order : List Entry} {more : Nat} {s' : System}

/-- `monitor_directory` passes over "." and "..". -/
theorem Covered.skip {e : Entry} {es : List Entry} (h : Covered source backup s)
    (hstack : s.daemon.stack = .scan path1 path2 (.entries (e :: es)) :: rest)
    (hdots : e.name = [chr '.'] ∨ e.name = [chr '.', chr '.']) (hstep : s.step (.daemon order more) = some s') :
    Covered source backup s' := by
  obtain ⟨x, hmirrors, hdir, hd, hall⟩ := h.sound hstack
  have hskip : ∀ m : Name, ∀ b, ⟨m.text, b⟩ ∈ e :: es → ⟨m.text, b⟩ ∈ es := by
    intro m b hm
    rcases List.mem_cons.1 hm with rfl | hm
    · exact absurd hdots m.not_dots
    · exact hm
  rw [step_skip order more hstack hdots] at hstep
  obtain rfl := Option.some.inj hstep
  have hsound : (Frame.scan path1 path2 (.entries es)).Sound source backup s.watches s.tree :=
    ⟨x, hmirrors, hdir, hd, fun e' he' => hall e' (List.mem_cons_of_mem _ he')⟩
  refine h.of_top [.scan path1 path2 (.entries es)] hstack (List.forall_mem_singleton.2 hsound) ?_ ?_
    (fun _ hl => absurd hl id)
  · rintro p - ⟨m, hm, rfl⟩
    exact ⟨_, List.mem_singleton_self _, m, hskip m _ hm, rfl⟩
  · rintro y bytes - ⟨m, hm, hp⟩
    exact .inr ⟨_, List.mem_singleton_self _, m, hskip m _ hm, hp⟩

/-- `monitor_directory` calls itself for a directory. -/
theorem Covered.enter {n : Name} {es : List Entry} (h : Covered source backup s)
    (hstack : s.daemon.stack = .scan path1 path2 (.entries (⟨n.text, true⟩ :: es)) :: rest)
    (hstep : s.step (.daemon order more) = some s') : Covered source backup s' := by
  obtain ⟨x, hmirrors, hdir, hd, hall⟩ := h.sound hstack
  obtain ⟨he, hes⟩ := List.forall_mem_cons.1 hall
  have hisDir : s.tree.node (source ++ x ++ [n]) = some .dir := by
    rcases he with hdots | ⟨n', hname, hisDir⟩
    · exact absurd hdots n.not_dots
    · rw [Name.text_inj hname]
      exact hisDir rfl
  rw [step_enter order more hstack] at hstep
  obtain rfl := Option.some.inj hstep
  have hstart : (Frame.scan (join path1 n.text) (join path2 n.text) .start).Sound source backup s.watches s.tree :=
    ⟨x ++ [n], hmirrors.join n, by rw [← List.append_assoc]; exact hisDir, trivial⟩
  have hsound : (Frame.scan path1 path2 (.entries es)).Sound source backup s.watches s.tree :=
    ⟨x, hmirrors, hdir, hd, hes⟩
  refine h.of_top [.scan (join path1 n.text) (join path2 n.text) .start, .scan path1 path2 (.entries es)] hstack
    (List.forall_mem_cons.2 ⟨hstart, List.forall_mem_singleton.2 hsound⟩) ?_ ?_ (fun _ hl => absurd hl id)
  · rintro p - ⟨m, hm, rfl⟩
    rcases mem_cons_text hm with ⟨rfl, -⟩ | hm
    · exact ⟨_, List.mem_cons_self .., (resolve_join path1 m).symm⟩
    · exact ⟨_, List.mem_cons_of_mem _ (List.mem_singleton_self _), m, hm, rfl⟩
  · rintro y bytes - ⟨m, hm, hp⟩
    rcases mem_cons_text hm with ⟨-, hb⟩ | hm
    · cases hb
    · exact .inr ⟨_, List.mem_cons_of_mem _ (List.mem_singleton_self _), m, hm, hp⟩

/-- `monitor_directory` copies a file. -/
private theorem Covered.copyEntry {n : Name} {es : List Entry} (h : Covered source backup s)
    (hout : ¬ source <+: backup)
    (hfits : s.copyFits = true) (hstack : s.daemon.stack = .scan path1 path2 (.entries (⟨n.text, false⟩ :: es)) :: rest)
    (hstep : s.step (.daemon order more) = some s') : Covered source backup s' := by
  obtain ⟨x, hmirrors, -, -⟩ := h.sound hstack
  have hcopy : s.daemon.next = .copy (join path1 n.text) (join path2 n.text)
      { s.daemon with stack := .scan path1 path2 (.entries es) :: rest } := by
    rw [(next_of_scan hstack).1]
    simp only [State.monitorDirectory, if_neg n.not_dots, Bool.false_eq_true, if_false]
  obtain ⟨hcov, hexact⟩ := h.of_copy hout hfits hcopy (hmirrors.join n)
  obtain ⟨x', hmirrors', hdir', hd', hes'⟩ := hcov.sound hstack
  rw [step_copy order more hstack] at hstep
  obtain rfl := Option.some.inj hstep
  refine hcov.of_top [.scan path1 path2 (.entries es)] hstack
    (List.forall_mem_singleton.2 ⟨x', hmirrors', hdir', hd', fun e he => hes' e (List.mem_cons_of_mem _ he)⟩)
    ?_ ?_ (fun _ hl => absurd hl id)
  · rintro p - ⟨m, hm, rfl⟩
    rcases mem_cons_text hm with ⟨-, hb⟩ | hm
    · cases hb
    · exact ⟨_, List.mem_singleton_self _, m, hm, rfl⟩
  · rintro y bytes hfile ⟨m, hm, hp⟩
    rcases mem_cons_text hm with ⟨rfl, -⟩ | hm
    · left
      rw [hmirrors.source, List.append_assoc] at hp
      obtain rfl := List.append_cancel_left hp
      exact hexact bytes hfile
    · exact .inr ⟨_, List.mem_singleton_self _, m, hm, hp⟩

end Entries

/-- `monitor_directory`. -/
theorem covered_scan {path1 path2 : Str} {pc : ScanPc} {rest : List Frame} {order : List Entry} {more : Nat}
    {s' : System} (h : Covered source backup s) (hout : ¬ source <+: backup) (hfits : s.copyFits = true)
    (hstack : s.daemon.stack = .scan path1 path2 pc :: rest) (hstep : s.step (.daemon order more) = some s') :
    Covered source backup s' := by
  obtain ⟨x, hmirrors, hdir, hpc⟩ := h.sound hstack
  have hopen : s.tree.node (resolve path1) = some .dir := by rw [hmirrors.source, hdir]
  have hsound : ∀ t pc', t.node (source ++ x) = some .dir → ScanPc.Sound s.watches t (source ++ x) pc' →
      ∀ g ∈ [Frame.scan path1 path2 pc'], g.Sound source backup s.watches t := by
    intro t pc' hdir' hpc'
    exact List.forall_mem_singleton.2 ⟨x, hmirrors, hdir', hpc'⟩
  have hthis : ∀ (pc' : ScanPc) (P : Frame → Prop), P (.scan path1 path2 pc') →
      ∃ g ∈ [Frame.scan path1 path2 pc'], P g := fun pc' P hP => ⟨_, List.mem_singleton_self _, hP⟩
  cases pc with
  | start =>
    have hguard : path1 ≠ s.daemon.pathArgv2 := by
      rintro rfl
      apply hout
      rw [← h.backup_eq, hmirrors.source]
      exact List.prefix_append ..
    rw [step_open order more hstack hguard hopen] at hstep
    obtain rfl := Option.some.inj hstep
    exact h.of_top [.scan path1 path2 .mkdir] hstack (hsound _ _ hdir trivial) (fun p _ hp => hthis _ _ hp)
      (fun _ _ _ hc => absurd hc id) (fun _ hl => absurd hl id)
  | mkdir =>
    rw [step_mkdir order more hstack] at hstep
    obtain rfl := Option.some.inj hstep
    have hmkdir := h.mkdir (resolve path2)
    obtain ⟨x', hmirrors', hdir', -⟩ := hmkdir.sound hstack
    exact hmkdir.of_top [.scan path1 path2 .watch] hstack
      (List.forall_mem_singleton.2 ⟨x', hmirrors', hdir', trivial⟩) (fun p _ hp => hthis _ _ hp)
      (fun _ _ _ hc => absurd hc id) (fun _ hl => absurd hl id)
  | watch =>
    rw [step_watch order more hstack hopen] at hstep
    obtain rfl := Option.some.inj hstep
    exact h.of_watch hstack
  | readdir =>
    rw [step_readdir order more hstack] at hstep
    split at hstep
    · rename_i hperm
      obtain rfl := Option.some.inj hstep
      have hentry : ∀ e ∈ order, (e.name = [chr '.'] ∨ e.name = [chr '.', chr '.']) ∨
          ∃ n : Name, e.name = n.text ∧ (e.isDir = true → s.tree.node (source ++ x ++ [n]) = some .dir) := by
        intro e he
        rcases mem_entries.1 (hperm.mem_iff.1 he) with rfl | rfl | ⟨n, -, rfl⟩
        · exact .inl (.inl rfl)
        · exact .inl (.inr rfl)
        · rw [hmirrors.source]
          exact .inr ⟨n, rfl, of_decide_eq_true⟩
      have hmem : ∀ n, s.tree.node (resolve path1 ++ [n]) ≠ none →
          ⟨n.text, s.tree.node (resolve path1 ++ [n]) = some .dir⟩ ∈ order := fun n hn =>
        hperm.mem_iff.2 (mem_entries.2 (.inr (.inr ⟨n, hn, rfl⟩)))
      refine h.of_top [.scan path1 path2 (.entries order)] hstack (hsound _ _ hdir ⟨hpc, hentry⟩)
        (fun _ _ hp => absurd hp id) (fun _ _ _ hc => absurd hc id) ?_
      rintro d rfl
      refine .inr ⟨fun n hn => hthis _ _ ⟨n, ?_, rfl⟩, fun n bytes hn => hthis _ _ ⟨n, ?_, rfl⟩⟩
      · simpa [hn] using hmem n (by simp [hn])
      · simpa [hn] using hmem n (by simp [hn])
    · cases hstep
  | entries es =>
    cases es with
    | nil =>
      rw [step_end order more hstack] at hstep
      obtain rfl := Option.some.inj hstep
      refine h.of_top [] hstack (by simp) ?_ ?_ (fun _ hl => absurd hl id)
      · rintro p - ⟨n, hn, -⟩
        cases hn
      · rintro y bytes - ⟨n, hn, -⟩
        cases hn
    | cons e es =>
      rcases hpc.2 e List.mem_cons_self with hdots | ⟨n, hname, -⟩
      · exact h.skip hstack hdots hstep
      · obtain ⟨name, isDir⟩ := e
        obtain rfl : name = n.text := hname
        cases isDir with
        | true => exact h.enter hstack hstep
        | false => exact h.copyEntry hout hfits hstack hstep

/-- `monitor_events`. -/
private theorem covered_events {evs : List Event} {pc : EventPc} {rest : List Frame} {order : List Entry} {more : Nat}
    {s' : System} (h : Covered source backup s) (hout : ¬ source <+: backup) (hfits : s.copyFits = true)
    (hstack : s.daemon.stack = .events evs pc :: rest) (hstep : s.step (.daemon order more) = some s') :
    Covered source backup s' := by
  have hnext : s.daemon.next = s.daemon.monitorEvents evs pc rest := by rw [State.next, hstack]
  cases evs with
  | nil =>
    simp only [System.step, hnext, State.monitorEvents] at hstep
    split at hstep
    · cases hstep
    · obtain rfl := Option.some.inj hstep
      exact h.of_read hstack (more + 1)
  | cons e es =>
    obtain ⟨p, hat⟩ := h.sound hstack e (List.mem_cons_self ..)
    obtain ⟨x, path1, path2, hp, hpath1, hpath2, hmirrors⟩ := h.mirrors_of_eventAt hat
    have hresolve : resolve (join path1 e.name) = p := by rw [hmirrors.source, hp]
    have hscan : s.tree.node p = some .dir → ∀ g ∈ [Frame.scan (join path1 e.name) (join path2 e.name) .start],
        g.Sound source backup s.watches s.tree := fun hdir =>
      List.forall_mem_singleton.2 ⟨x, hmirrors, hp ▸ hdir, trivial⟩
    have hscans : ∃ g ∈ [Frame.scan (join path1 e.name) (join path2 e.name) .start], g.Scans s.watches p :=
      ⟨_, List.mem_singleton_self _, hresolve.symm⟩
    -- a copy, after which `monitor_events` goes on with `evs'` at `pc'`
    have hcopied : ∀ evs' pc', s.daemon.next = .copy (join path1 e.name) (join path2 e.name)
        { s.daemon with stack := .events evs' pc' :: rest } → (evs' = e :: es ∨ (evs' = es ∧ pc' = .check)) →
        (pc.scans e → evs' = e :: es ∧ pc'.scans e) → Covered source backup s' := by
      intro evs' pc' hcopy hevs' hscans'
      obtain ⟨hcov, hexact⟩ := h.of_copy hout hfits hcopy hmirrors
      simp only [System.step, hcopy, Option.some.injEq] at hstep
      subst hstep
      refine hcov.of_event [] pc' hstack hat hevs' (by simp) (fun _ hs => .inr (hscans' hs)) ?_
      intro y bytes hy hfile _
      obtain rfl : x = y := List.append_cancel_left (hp.symm.trans hy)
      exact .inl (hexact bytes (hp ▸ hfile))
    cases pc with
    | check =>
      have hguard : join path1 e.name ≠ s.daemon.pathArgv2 := by
        intro heq
        apply hout
        rw [← h.backup_eq, ← heq, hmirrors.source]
        exact List.prefix_append ..
      simp only [System.step, hnext, State.monitorEvents, hpath1, hpath2, if_neg hguard, Option.some.injEq] at hstep
      subst hstep
      exact h.of_event [] .create hstack hat (.inl rfl) (by simp) (fun _ hs => .inr ⟨rfl, hs⟩)
        (fun _ _ _ _ hc => .inr ⟨rfl, hc⟩)
    | create =>
      by_cases hcreate : e.create = true
      · simp only [System.step, hnext, State.monitorEvents, hpath1, hpath2, if_pos hcreate, hresolve,
          Option.some.injEq] at hstep
        subst hstep
        by_cases hdir : s.tree.node p = some .dir
        · simp only [hdir, decide_true, if_true]
          exact h.of_event [.scan (join path1 e.name) (join path2 e.name) .start] .modify hstack hat (.inl rfl)
            (hscan hdir) (fun _ _ => .inl hscans) (fun _ _ _ hfile _ => by rw [hdir] at hfile; cases hfile)
        · simp only [hdir, decide_false, Bool.false_eq_true, if_false]
          exact h.of_event [] .createCopy hstack hat (.inl rfl) (by simp) (fun hdir' => absurd hdir' hdir)
            (fun _ _ _ _ hc => .inr ⟨rfl, hc⟩)
      · simp only [System.step, hnext, State.monitorEvents, hpath1, hpath2, if_neg hcreate, Option.some.injEq] at hstep
        subst hstep
        exact h.of_event [] .modify hstack hat (.inl rfl) (by simp)
          (fun _ hs => .inr ⟨rfl, hs.resolve_left hcreate⟩) (fun _ _ _ _ hc => .inr ⟨rfl, hc.resolve_left hcreate⟩)
    | createCopy =>
      refine hcopied (e :: es) .modify ?_ (.inl rfl) fun hs => ⟨rfl, hs⟩
      rw [hnext]
      simp only [State.monitorEvents, hpath1, hpath2]
    | modify =>
      by_cases hmodify : e.modify = true
      · refine hcopied (e :: es) .movedTo ?_ (.inl rfl) fun hs => ⟨rfl, hs⟩
        rw [hnext]
        simp only [State.monitorEvents, hpath1, hpath2, if_pos hmodify]
      · simp only [System.step, hnext, State.monitorEvents, hpath1, hpath2, if_neg hmodify, Option.some.injEq] at hstep
        subst hstep
        exact h.of_event [] .movedTo hstack hat (.inl rfl) (by simp) (fun _ hs => .inr ⟨rfl, hs⟩)
          (fun _ _ _ _ hc => .inr ⟨rfl, hc.resolve_left hmodify⟩)
    | movedTo =>
      by_cases hmoved : e.movedTo = true
      · simp only [System.step, hnext, State.monitorEvents, hpath1, hpath2, if_pos hmoved, hresolve,
          Option.some.injEq] at hstep
        subst hstep
        by_cases hdir : s.tree.node p = some .dir
        · simp only [hdir, decide_true, if_true]
          exact h.of_event [.scan (join path1 e.name) (join path2 e.name) .start] .check hstack hat (.inr ⟨rfl, rfl⟩)
            (hscan hdir) (fun _ _ => .inl hscans) (fun _ _ _ hfile _ => by rw [hdir] at hfile; cases hfile)
        · simp only [hdir, decide_false, Bool.false_eq_true, if_false]
          exact h.of_event [] .movedCopy hstack hat (.inl rfl) (by simp) (fun hdir' => absurd hdir' hdir)
            (fun _ _ _ _ hc => .inr ⟨rfl, hc⟩)
      · simp only [System.step, hnext, State.monitorEvents, hpath1, hpath2, if_neg hmoved, Option.some.injEq] at hstep
        subst hstep
        exact h.of_event [] .check hstack hat (.inr ⟨rfl, rfl⟩) (by simp) (fun _ hs => absurd hs hmoved)
          (fun _ _ _ _ hc => absurd hc hmoved)
    | movedCopy =>
      refine hcopied es .check ?_ (.inr ⟨rfl, rfl⟩) fun hs => absurd hs id
      rw [hnext]
      simp only [State.monitorEvents, hpath1, hpath2]

private theorem covered_caller {sig : Option SigNo} {listening : Bool} {rest : List Frame} {order : List Entry}
    {more : Nat} {s' : System} (h : Covered source backup s) (hstack : s.daemon.stack = .caller sig listening :: rest)
    (hstep : s.step (.daemon order more) = some s') : Covered source backup s' := by
  cases listening with
  | false =>
    simp only [System.step, State.next, hstack, Option.some.injEq] at hstep
    subst hstep
    refine h.of_top [.events [] .check, .caller sig true] hstack ?_ (fun _ _ hp => absurd hp id)
      (fun _ _ _ hc => absurd hc id) (fun _ hl => absurd hl id)
    exact List.forall_mem_cons.2 ⟨by simp [Frame.Sound], List.forall_mem_singleton.2 trivial⟩
  | true =>
    simp only [System.step, State.next, hstack, Option.some.injEq] at hstep
    subst hstep
    exact h.of_top [] hstack (by simp) (fun _ _ hp => absurd hp id) (fun _ _ _ hc => absurd hc id)
      (fun _ hl => absurd hl id)

/-! ### Changes -/

/-- Something is put into the source directory, and its event into the queue. -/
private theorem Covered.of_notify {mask : Mask} {p : List Name} {z : Node CChar} (h : Covered source backup s)
    (hput : s.tree.CanPut p) (hnot : ¬ backup <+: p) (hdir : z = .dir → mask = .create) :
    Covered source backup { s with tree := s.tree.set p z, queue := notify s.watches mask p s.queue } := by
  refine h.of_put hput (FileTree.node_set z hput) (fun e he => mem_notify_of_mem he) (fun e he => ?_) (fun hz hw => ?_)
    (fun bytes hz => .inr fun hw => ?_) ?_
  · rcases mem_of_mem_notify he with he | he
    · exact .inl he
    · exact .inr ⟨_, he⟩
  · obtain rfl := hdir hz
    exact due_notify hput.ne_nil hw fun d n => .inl rfl
  · refine due_notify hput.ne_nil hw fun d n => ?_
    cases mask with
    | create => exact .inl rfl
    | modify => exact .inr (.inl rfl)
    | movedTo => exact .inr (.inr rfl)
  · rintro x bytes rfl
    exact absurd (List.prefix_append ..) hnot

private theorem covered_change {c : Change} {s' : System} (h : Covered source backup s) (hstep : s.change c = some s') :
    Covered source backup s' := by
  have hbackup : s.backup = backup := h.backup_eq
  cases c with
  | create p =>
    simp only [System.change] at hstep
    split at hstep
    · rename_i hcan
      obtain ⟨-, hnot, -, hput⟩ := hcan
      obtain rfl := Option.some.inj hstep
      exact h.of_notify hput (hbackup ▸ hnot) (by simp)
    · cases hstep
  | mkdir p =>
    simp only [System.change] at hstep
    split at hstep
    · rename_i hcan
      obtain ⟨-, hnot, -, hput⟩ := hcan
      obtain rfl := Option.some.inj hstep
      exact h.of_notify hput (hbackup ▸ hnot) (fun _ => rfl)
    · cases hstep
  | write p bytes =>
    simp only [System.change] at hstep
    split at hstep
    · rename_i hcan
      obtain ⟨-, hnot, -, hput⟩ := hcan
      obtain rfl := Option.some.inj hstep
      exact h.of_notify hput (hbackup ▸ hnot) (by simp)
    · cases hstep
  | move p q =>
    simp only [System.change] at hstep
    split at hstep
    · rename_i bytes hp
      split at hstep
      · rename_i hcan
        obtain ⟨hnotp, -, hnot, hne, hput⟩ := hcan
        obtain rfl := Option.some.inj hstep
        have hcov : Covered source backup { s with
            tree := s.tree.set q (.file bytes), queue := notify s.watches .movedTo q s.queue } :=
          h.of_notify hput (hbackup ▸ hnot) (by simp)
        have hfile : (s.tree.set q (.file bytes)).node p ≠ some .dir := by
          rw [FileTree.node_set _ hput, Function.update_of_ne hne, hp]
          simp
        exact hcov.of_erase hfile (FileTree.node_erase hfile) (hbackup ▸ hnotp)
      · cases hstep
    · cases hstep

/-- Every step in which a copy fits keeps the invariant. -/
theorem covered_step {a : SysAction} {s' : System} (h : Covered source backup s) (hout : ¬ source <+: backup)
    (hfits : s.copyFits = true) (hstep : s.step a = some s') : Covered source backup s' := by
  cases a with
  | change c =>
    simp only [System.step] at hstep
    split at hstep
    · exact covered_change h hstep
    · cases hstep
  | daemon order more =>
    cases hstack : s.daemon.stack with
    | nil => simp [System.step, State.next, hstack] at hstep
    | cons f rest =>
      cases f with
      | scan path1 path2 pc => exact covered_scan h hout hfits hstack hstep
      | events evs pc => exact covered_events h hout hfits hstack hstep
      | caller sig listening => exact covered_caller h hstack hstep

end Step

/-! ### The daemon of the system is the daemon -/

/-- A step of the system is a step of the daemon with an answer, or leaves the daemon alone. -/
theorem daemon_step {source backup : List Name} {s s' : System} {a : SysAction} (h : Covered source backup s)
    (hstep : s.step a = some s') : s'.daemon = s.daemon ∨ ∃ act, s.daemon.step act = some s'.daemon := by
  have hissued : ∀ e ∈ s.queue, e.wd ∈ s.daemon.issued := by
    intro e he
    obtain ⟨p, i, d, n, hwd, hd, -, -⟩ := h.queue_sound e he
    rw [hwd]
    exact h.issued i (List.getElem?_eq_some_iff.1 hd).1
  cases a with
  | change c =>
    left
    simp only [System.step] at hstep
    split at hstep
    · cases c <;> simp only [System.change] at hstep
      · split at hstep
        · obtain rfl := Option.some.inj hstep; rfl
        · cases hstep
      · split at hstep
        · obtain rfl := Option.some.inj hstep; rfl
        · cases hstep
      · split at hstep
        · obtain rfl := Option.some.inj hstep; rfl
        · cases hstep
      · split at hstep
        · split at hstep
          · obtain rfl := Option.some.inj hstep; rfl
          · cases hstep
        · cases hstep
    · cases hstep
  | daemon order more =>
    right
    simp only [System.step] at hstep
    split at hstep
    · rename_i path k hk
      obtain rfl := Option.some.inj hstep
      exact ⟨.opendir (s.tree.node (resolve path) = some .dir), by simp only [State.step, hk]⟩
    · rename_i path k hk
      obtain rfl := Option.some.inj hstep
      exact ⟨.tau, by simp only [State.step, hk]⟩
    · rename_i path k hk
      split at hstep
      · obtain rfl := Option.some.inj hstep
        exact ⟨.addWatch none, by simp only [State.step, hk]⟩
      · obtain rfl := Option.some.inj hstep
        exact ⟨.addWatch (some (watch s.watches (resolve path)).2), by simp only [State.step, hk]⟩
    · rename_i path k hk
      split at hstep
      · obtain rfl := Option.some.inj hstep
        exact ⟨.readdir order, by simp only [State.step, hk]⟩
      · cases hstep
    · rename_i path11 path22 k hk
      obtain rfl := Option.some.inj hstep
      exact ⟨.tau, by simp only [State.step, hk]⟩
    · rename_i k hk
      split at hstep
      · cases hstep
      · obtain rfl := Option.some.inj hstep
        have hevs : ∀ e ∈ Option.getD (some (s.queue.take (more + 1))) [], e.wd ∈ s.daemon.issued := fun e he =>
          hissued e (List.mem_of_mem_take he)
        exact ⟨.read (some (s.queue.take (more + 1))), by simp only [State.step, hk, if_pos hevs]⟩
    · rename_i d hk
      obtain rfl := Option.some.inj hstep
      exact ⟨.tau, by simp only [State.step, hk]⟩
    · cases hstep

/-- The system when `main` has called `monitor_directory`. -/
def boot (argv1 argv2 : Str) (tree : Tree) : Option System :=
  (main argv1 argv2).map fun daemon => ⟨daemon, tree, [], []⟩

theorem covered_boot {argv1 argv2 : Str} {tree : Tree} {s : System} (h : boot argv1 argv2 tree = some s)
    (hdir : tree.node (resolve argv1) = some .dir) :
    Covered (resolve argv1) (resolve argv2) s ∧ Inv s.daemon := by
  obtain ⟨d, hmain, rfl⟩ := Option.map_eq_some_iff.1 h
  refine ⟨?_, inv_main hmain⟩
  obtain ⟨-, rfl⟩ := main_eq_some hmain
  refine ⟨rfl, rfl, hdir, by simp, by simp, by simp, ?_, ?_, by simp, by simp⟩
  · intro f hf
    simp only [System.work, List.mem_cons, List.not_mem_nil, or_false] at hf
    rcases hf with rfl | rfl | rfl
    · intro e he
      cases he
    · exact ⟨[], ⟨by simp, by simp⟩, by simpa using hdir, trivial⟩
    · trivial
  · exact .inr ⟨.scan argv1 argv2 .start, mem_work rfl, rfl⟩

/-! ### Idle states -/

section Idle

variable {source backup : List Name} {s : System}

/-- A function that is settled has nothing to do. -/
theorem Frame.Settled.done {f : Frame} (h : f.Settled) (watches : List (List Name)) (p : List Name) :
    ¬ f.Scans watches p ∧ ¬ f.Copies watches p ∧ ¬ f.Lists p := by
  cases f with
  | scan => exact absurd h id
  | events evs pc =>
    obtain rfl : evs = [] := h
    exact ⟨id, id, id⟩
  | caller => exact ⟨id, id, id⟩

private theorem settled_of_idle (hinv : Inv s.daemon) (hidle : s.Idle) : ∀ f ∈ s.work, f.Settled := by
  intro f hf
  rcases List.mem_cons.1 hf with rfl | hf
  · exact hidle.2
  · exact settled_of_waits hinv hidle.1 f hf

/-- When nothing is left to do, every directory is watched. -/
theorem Covered.watched_of_settled (h : Covered source backup s) (hsettled : ∀ f ∈ s.work, f.Settled) (x : List Name)
    (hdir : s.tree.node (source ++ x) = some .dir) : source ++ x ∈ s.watches := by
  induction x using List.reverseRecOn with
  | nil =>
    rw [List.append_nil]
    rcases h.root with hroot | ⟨f, hf, hscan⟩
    · exact hroot
    · exact absurd hscan ((hsettled f hf).done s.watches source).1
  | append_singleton x n ih =>
    rw [← List.append_assoc] at hdir ⊢
    have hparent := ih (s.tree.parent _ n (by rw [hdir]; simp))
    rcases h.dirs _ n hparent hdir with hw | ⟨f, hf, hscan⟩ | ⟨f, hf, hlist⟩
    · exact hw
    · exact absurd hscan ((hsettled f hf).done _ _).1
    · exact absurd hlist ((hsettled f hf).done s.watches _).2.2

/-- When nothing is left to do, every file has its copy. -/
theorem Covered.backedUp (h : Covered source backup s) (hsettled : ∀ f ∈ s.work, f.Settled) : s.BackedUp := by
  intro x bytes hfile
  rw [System.source, h.source_eq] at hfile
  rw [System.backup, h.backup_eq]
  rcases List.eq_nil_or_concat x with rfl | ⟨y, n, rfl⟩
  · rw [List.append_nil, h.source_dir] at hfile
    cases hfile
  · rw [List.concat_eq_append] at hfile ⊢
    have hparent : s.tree.node (source ++ y) = some .dir := by
      rw [← List.append_assoc] at hfile
      exact s.tree.parent _ n (by rw [hfile]; simp)
    have hcases := h.files y n bytes (h.watched_of_settled hsettled y hparent) hfile
    rcases hcases with hcopy | ⟨f, hf, hcopies⟩ | ⟨f, hf, hlist⟩
    · exact hcopy
    · exact absurd hcopies ((hsettled f hf).done _ _).2.1
    · exact absurd hlist ((hsettled f hf).done s.watches _).2.2

end Idle

/-- The backup directory lies outside the source directory, and every copy fits: whenever the daemon waits for events
and there are none, every file of the source directory has an exact copy. -/
theorem backed_up {argv1 argv2 : Str} {tree : Tree} {s₀ s : System} {as : List SysAction}
    (hout : ¬ resolve argv1 <+: resolve argv2) (hdir : tree.node (resolve argv1) = some .dir)
    (h₀ : boot argv1 argv2 tree = some s₀) (hfits : AllSteps System.step (fun s _ => s.copyFits = true) s₀ as)
    (hrun : run System.step s₀ as = some s) (hidle : s.Idle) : s.BackedUp := by
  have hstep : ∀ s a s', Covered (resolve argv1) (resolve argv2) s ∧ Inv s.daemon → s.copyFits = true →
      s.step a = some s' → Covered (resolve argv1) (resolve argv2) s' ∧ Inv s'.daemon := by
    intro s a s' hs hgood hstep
    refine ⟨covered_step hs.1 hout hgood hstep, ?_⟩
    rcases daemon_step hs.1 hstep with heq | ⟨act, hact⟩
    · rw [heq]
      exact hs.2
    · exact inv_step hs.2 hact
  have hinv := run_invariant_of_good hstep (covered_boot h₀ hdir) hfits hrun
  exact hinv.1.backedUp (settled_of_idle hinv.2 hidle)

/-! ### Runs -/

/-- A directory `s` with a file `f`, and a directory `b` with an older copy of it. -/
def olderCopy (new old : List CChar) : Tree :=
  let s : Name := ⟨[chr 's'], by decide⟩
  let b : Name := ⟨[chr 'b'], by decide⟩
  let f : Name := ⟨[chr 'f'], by decide⟩
  (((FileTree.empty.set [s] .dir).set [s, f] (.file new)).set [b] .dir).set [b, f] (.file old)

/-- The daemon is started with `s` and `b`. -/
def startOlder (new old : List CChar) : System := (boot [chr 's'] [chr 'b'] (olderCopy new old)).get rfl

private theorem boot_olderCopy (new old : List CChar) :
    boot [chr 's'] [chr 'b'] (olderCopy new old) = some (startOlder new old) := (Option.some_get _).symm

/-- The scan of `s`, up to the first call of `read`. -/
def scanRun : List SysAction :=
  List.replicate 3 (.daemon [] 0) ++
    [.daemon [⟨[chr '.'], true⟩, ⟨[chr '.', chr '.'], true⟩, ⟨[chr 'f'], false⟩] 0] ++ List.replicate 5 (.daemon [] 0)

/-- The scan, and then `f` is written to. -/
def writeRun (bytes : List CChar) : List SysAction :=
  scanRun ++ .change (.write (resolve [chr 's', chr '/', chr 'f']) bytes) :: List.replicate 5 (.daemon [] 0)

/-- The old copy has the length of the file, and the one that is made when the file is written to is longer. -/
theorem backed_up_write : ∃ s, run System.step (startOlder [1] [2]) (writeRun [7, 8]) = some s ∧ s.Idle ∧
    s.tree.node (resolve [chr 's', chr '/', chr 'f']) = some (.file [7, 8]) ∧ s.BackedUp := by
  have hrun : ((run System.step (startOlder [1] [2]) (writeRun [7, 8])).map fun s =>
      (s.daemon.waits, s.queue, s.tree.node (resolve [chr 's', chr '/', chr 'f']))) =
      some (true, [], some (.file [7, 8])) := by
    decide
  obtain ⟨s, hs, hfields⟩ := Option.map_eq_some_iff.1 hrun
  simp only [Prod.mk.injEq] at hfields
  obtain ⟨hwaits, hqueue, hfile⟩ := hfields
  exact ⟨s, hs, ⟨hwaits, hqueue⟩, hfile,
    backed_up (by decide) (by decide) (boot_olderCopy [1] [2]) (by decide) hs ⟨hwaits, hqueue⟩⟩

/-- An older copy that is longer than the file keeps its end. -/
theorem not_backed_up : ¬ ∀ (argv1 argv2 : Str) (tree : Tree) (s₀ s : System) (as : List SysAction),
    ¬ resolve argv1 <+: resolve argv2 → tree.node (resolve argv1) = some .dir → boot argv1 argv2 tree = some s₀ →
      run System.step s₀ as = some s → s.Idle → s.BackedUp := by
  intro h
  have hrun : ((run System.step (startOlder [1] [2, 3]) scanRun).map fun s => (s.daemon.waits, s.queue,
      s.tree.node (s.source ++ resolve [chr 'f']), s.tree.node (s.backup ++ resolve [chr 'f']))) =
      some (true, [], some (.file [1]), some (.file [1, 3])) := by
    decide
  obtain ⟨s, hs, hfields⟩ := Option.map_eq_some_iff.1 hrun
  simp only [Prod.mk.injEq] at hfields
  obtain ⟨hwaits, hqueue, hnew, hold⟩ := hfields
  have hcopy := h _ _ _ _ s scanRun (by decide) (by decide) (boot_olderCopy [1] [2, 3]) hs ⟨hwaits, hqueue⟩ _ _ hnew
  rw [hold] at hcopy
  cases hcopy

end UnixTasks.Daemon
