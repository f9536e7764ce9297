import UnixTasks.Daemon.Effects

/-!
# What the daemon has yet to do

Every directory and every file of the source tree is either done (the directory is watched, the file has an exact copy)
or the daemon has yet to come to it: in a directory that it scans, or with an event that it has not handled.

* (`Frame.Scans`, `Frame.Copies`, `Frame.Lists`) what a function that is running has yet to do;
* (`Frame.Sound`) what it relies on;
* (`Covered`) the invariant, and what keeps it: another function on top (`Covered.of_top`), a change of the tree
  (`Covered.of_put`, `Covered.of_erase`).
-/

namespace UnixTasks.Daemon

open CChar

/-! ### What a function has yet to do -/

/-- Two paths for one place: one in the source directory, the other in the backup directory. -/
structure Mirrors (source backup : List Name) (path1 path2 : Str) (x : List Name) : Prop where
  source : resolve path1 = source ++ x
  backup : resolve path2 = backup ++ x

theorem Mirrors.join {source backup : List Name} {path1 path2 : Str} {x : List Name}
    (h : Mirrors source backup path1 path2 x) (n : Name) :
    Mirrors source backup (join path1 n.text) (join path2 n.text) (x ++ [n]) := by
  constructor
  · rw [resolve_join, h.source, List.append_assoc]
  · rw [resolve_join, h.backup, List.append_assoc]

/-- From here on, the event makes `monitor_events` scan a directory. -/
def EventPc.scans : EventPc → Event → Prop
  | .check, e | .create, e => e.create = true ∨ e.movedTo = true
  | .createCopy, e | .modify, e | .movedTo, e => e.movedTo = true
  | .movedCopy, _ => False

/-- From here on, the event makes `monitor_events` copy a file. -/
def EventPc.copies : EventPc → Event → Prop
  | .check, e | .create, e | .createCopy, e => e.create = true ∨ e.modify = true ∨ e.movedTo = true
  | .modify, e => e.modify = true ∨ e.movedTo = true
  | .movedTo, e | .movedCopy, e => e.movedTo = true

/-- The first event, from `pc` on, or one of the others is about `p` and makes `monitor_events` do something. -/
def Due (watches : List (List Name)) (act : EventPc → Event → Prop) (p : List Name) : List Event → EventPc → Prop
  | [], _ => False
  | e :: es, pc => (act pc e ∧ EventAt watches e p) ∨ ∃ e' ∈ es, act .check e' ∧ EventAt watches e' p

namespace Frame

/-- The directory `p` is yet to be scanned. -/
def Scans (watches : List (List Name)) (p : List Name) : Frame → Prop
  | .scan _ _ .readdir => False
  | .scan path1 _ (.entries es) => ∃ n : Name, ⟨n.text, true⟩ ∈ es ∧ p = resolve path1 ++ [n]
  | .scan path1 _ _ => p = resolve path1
  | .events evs pc => Due watches EventPc.scans p evs pc
  | .caller .. => False

/-- The file `p` is yet to be copied. -/
def Copies (watches : List (List Name)) (p : List Name) : Frame → Prop
  | .scan path1 _ (.entries es) => ∃ n : Name, ⟨n.text, false⟩ ∈ es ∧ p = resolve path1 ++ [n]
  | .scan .. => False
  | .events evs pc => Due watches EventPc.copies p evs pc
  | .caller .. => False

/-- The entries of the directory `p` are yet to be read. -/
def Lists (p : List Name) : Frame → Prop
  | .scan path1 _ .readdir => p = resolve path1
  | _ => False

end Frame

/-- What `monitor_directory` relies on for the directory `d`. -/
def ScanPc.Sound (watches : List (List Name)) (t : Tree) (d : List Name) : ScanPc → Prop
  | .start | .mkdir | .watch => True
  | .readdir => d ∈ watches
  | .entries es => d ∈ watches ∧ ∀ e ∈ es, (e.name = [chr '.'] ∨ e.name = [chr '.', chr '.']) ∨
      ∃ n : Name, e.name = n.text ∧ (e.isDir = true → t.node (d ++ [n]) = some .dir)

/-- What a function that is running relies on. -/
def Frame.Sound (source backup : List Name) (watches : List (List Name)) (t : Tree) : Frame → Prop
  | .scan path1 path2 pc => ∃ x, Mirrors source backup path1 path2 x ∧ t.node (source ++ x) = some .dir ∧
      pc.Sound watches t (source ++ x)
  | .events evs _ => ∀ e ∈ evs, ∃ p, EventAt watches e p
  | .caller .. => True

/-- The functions that are running, and the events that have not been read. -/
def System.work (s : System) : List Frame := .events s.queue .check :: s.daemon.stack

structure Covered (source backup : List Name) (s : System) : Prop where
  source_eq : resolve s.daemon.pathArgv1 = source
  backup_eq : resolve s.daemon.pathArgv2 = backup
  source_dir : s.tree.node source = some .dir
  issued (i : Nat) (h : i < s.watches.length) : i + 1 ∈ s.daemon.issued
  tables (i : Nat) (d : List Name) (h : s.watches[i]? = some d) : ∃ x path1 path2, d = source ++ x ∧
    s.daemon.wds (i + 1) = some path1 ∧ s.daemon.backs (i + 1) = some path2 ∧ Mirrors source backup path1 path2 x
  watched (d : List Name) (h : d ∈ s.watches) : s.tree.node d = some .dir
  frames (f : Frame) (h : f ∈ s.work) : f.Sound source backup s.watches s.tree
  root : source ∈ s.watches ∨ ∃ f ∈ s.work, f.Scans s.watches source
  dirs (d : List Name) (n : Name) (hd : d ∈ s.watches) (h : s.tree.node (d ++ [n]) = some .dir) :
    d ++ [n] ∈ s.watches ∨ (∃ f ∈ s.work, f.Scans s.watches (d ++ [n])) ∨ ∃ f ∈ s.work, f.Lists d
  files (x : List Name) (n : Name) (bytes : List CChar) (hd : source ++ x ∈ s.watches)
    (h : s.tree.node (source ++ (x ++ [n])) = some (.file bytes)) :
    s.tree.node (backup ++ (x ++ [n])) = some (.file bytes) ∨
      (∃ f ∈ s.work, f.Copies s.watches (source ++ (x ++ [n]))) ∨ ∃ f ∈ s.work, f.Lists (source ++ x)

theorem mem_work {s : System} {f : Frame} {rest : List Frame} (hstack : s.daemon.stack = f :: rest) : f ∈ s.work := by
  rw [System.work, hstack]
  exact List.mem_cons_of_mem _ (List.mem_cons_self ..)

/-- The innermost function can rely on what it needs. -/
theorem Covered.sound {source backup : List Name} {s : System} {f : Frame} {rest : List Frame}
    (h : Covered source backup s) (hstack : s.daemon.stack = f :: rest) : f.Sound source backup s.watches s.tree :=
  h.frames f (mem_work hstack)

/-- The events that have not been read are about entries of watched directories. -/
theorem Covered.queue_sound {source backup : List Name} {s : System} (h : Covered source backup s) :
    ∀ e ∈ s.queue, ∃ p, EventAt s.watches e p := h.frames (.events s.queue .check) (List.mem_cons_self ..)

/-! ### Events -/

section Due

variable {watches watches' : List (List Name)} {act : EventPc → Event → Prop} {p : List Name} {evs : List Event}

theorem due_check : Due watches act p evs .check ↔ ∃ e ∈ evs, act .check e ∧ EventAt watches e p := by
  cases evs with
  | nil => simp [Due]
  | cons e es => simp [Due]

theorem EventAt.mono {e : Event} (h : EventAt watches e p) (hw : watches <+: watches') : EventAt watches' e p := by
  obtain ⟨i, d, n, hwd, hd, hname, rfl⟩ := h
  obtain ⟨ws, rfl⟩ := hw
  have hi : i < watches.length := (List.getElem?_eq_some_iff.1 hd).1
  exact ⟨i, d, n, hwd, by rw [List.getElem?_append_left hi, hd], hname, rfl⟩

theorem Due.mono {pc : EventPc} (h : Due watches act p evs pc) (hw : watches <+: watches') :
    Due watches' act p evs pc := by
  cases evs with
  | nil => exact h
  | cons e es =>
    rcases h with ⟨hact, he⟩ | ⟨e', he', hact, hat⟩
    · exact .inl ⟨hact, he.mono hw⟩
    · exact .inr ⟨e', he', hact, hat.mono hw⟩

/-- An event about one entry is about no other. -/
theorem EventAt.unique {e : Event} {q : List Name} (hp : EventAt watches e p) (hq : EventAt watches e q) : p = q := by
  obtain ⟨i, d, n, hwd, hd, hname, rfl⟩ := hp
  obtain ⟨j, d', n', hwd', hd', hname', rfl⟩ := hq
  obtain rfl : i = j := by omega
  obtain rfl : d = d' := Option.some.inj (hd.symm.trans hd')
  rw [Name.text_inj (hname.symm.trans hname')]

theorem Frame.Scans.mono {f : Frame} (h : f.Scans watches p) (hw : watches <+: watches') : f.Scans watches' p := by
  cases f with
  | scan path1 path2 pc => cases pc <;> exact h
  | events evs pc => exact Due.mono h hw
  | caller => exact h

theorem Frame.Copies.mono {f : Frame} (h : f.Copies watches p) (hw : watches <+: watches') : f.Copies watches' p := by
  cases f with
  | scan path1 path2 pc => cases pc <;> exact h
  | events evs pc => exact Due.mono h hw
  | caller => exact h

/-- What a function relies on stays: watches are added, and directories stay. -/
theorem Frame.Sound.mono {source backup : List Name} {t t' : Tree} {f : Frame} (h : f.Sound source backup watches t)
    (hw : watches <+: watches') (ht : ∀ d, t.node d = some .dir → t'.node d = some .dir) :
    f.Sound source backup watches' t' := by
  cases f with
  | scan path1 path2 pc =>
    obtain ⟨x, hmirrors, hdir, hpc⟩ := h
    refine ⟨x, hmirrors, ht _ hdir, ?_⟩
    cases pc with
    | readdir => exact hw.subset hpc
    | entries es =>
      refine ⟨hw.subset hpc.1, fun e he => ?_⟩
      rcases hpc.2 e he with hdots | ⟨n, hname, hisDir⟩
      · exact .inl hdots
      · exact .inr ⟨n, hname, fun hd => ht _ (hisDir hd)⟩
    | start | mkdir | watch => trivial
  | events evs pc =>
    intro e he
    obtain ⟨p, hp⟩ := h e he
    exact ⟨p, hp.mono hw⟩
  | caller => trivial

end Due

/-! ### Steps that keep the invariant -/

section Keep

variable {source backup : List Name} {s : System}

/-- The daemon goes on with its functions `fs` in the place of the innermost one, `f`: what `f` had yet to do is done,
or one of them has yet to do it. -/
theorem Covered.of_top {f : Frame} {rest : List Frame} (h : Covered source backup s) (fs : List Frame)
    (hstack : s.daemon.stack = f :: rest) (hsound : ∀ g ∈ fs, g.Sound source backup s.watches s.tree)
    (hscans : ∀ p, s.tree.node p = some .dir → f.Scans s.watches p → ∃ g ∈ fs, g.Scans s.watches p)
    (hcopies : ∀ x bytes, s.tree.node (source ++ x) = some (.file bytes) → f.Copies s.watches (source ++ x) →
      s.tree.node (backup ++ x) = some (.file bytes) ∨ ∃ g ∈ fs, g.Copies s.watches (source ++ x))
    (hlists : ∀ d, f.Lists d → (∃ g ∈ fs, g.Lists d) ∨
      (∀ n, s.tree.node (d ++ [n]) = some .dir → ∃ g ∈ fs, g.Scans s.watches (d ++ [n])) ∧
        ∀ n bytes, s.tree.node (d ++ [n]) = some (.file bytes) → ∃ g ∈ fs, g.Copies s.watches (d ++ [n])) :
    Covered source backup { s with daemon := { s.daemon with stack := fs ++ rest } } := by
  have hwork : s.work = .events s.queue .check :: f :: rest := by rw [System.work, hstack]
  -- the queue and the outer functions are the same
  have hmem : ∀ P : Frame → Prop, (∃ g ∈ s.work, P g) → P f ∨
      ∃ g ∈ (.events s.queue .check :: (fs ++ rest)), P g := by
    intro P hP
    obtain ⟨g, hg, hP⟩ := hP
    rw [hwork] at hg
    simp only [List.mem_cons] at hg
    rcases hg with rfl | rfl | hg
    · exact .inr ⟨_, List.mem_cons_self .., hP⟩
    · exact .inl hP
    · exact .inr ⟨g, by simp [hg], hP⟩
  have hfs : ∀ P : Frame → Prop, (∃ g ∈ fs, P g) → ∃ g ∈ (.events s.queue .check :: (fs ++ rest)), P g := by
    rintro P ⟨g, hg, hP⟩
    exact ⟨g, by simp [hg], hP⟩
  refine ⟨h.source_eq, h.backup_eq, h.source_dir, h.issued, h.tables, h.watched, ?_, ?_, ?_, ?_⟩
  · intro g hg
    simp only [System.work, List.mem_cons, List.mem_append] at hg
    rcases hg with rfl | hg | hg
    · exact h.queue_sound
    · exact hsound g hg
    · exact h.frames g (by simp [hwork, hg])
  · rcases h.root with hroot | hroot
    · exact .inl hroot
    · right
      rcases hmem _ hroot with hf | hg
      · exact hfs _ (hscans source h.source_dir hf)
      · exact hg
  · intro d n hd hdir
    rcases h.dirs d n hd hdir with hw | hscan | hlist
    · exact .inl hw
    · right; left
      rcases hmem _ hscan with hf | hg
      · exact hfs _ (hscans _ hdir hf)
      · exact hg
    · right
      rcases hmem _ hlist with hf | hg
      · rcases hlists d hf with hg | ⟨hchildren, -⟩
        · exact .inr (hfs _ hg)
        · exact .inl (hfs _ (hchildren n hdir))
      · exact .inr hg
  · intro x n bytes hd hfile
    rcases h.files x n bytes hd hfile with hcopy | hcopy | hlist
    · exact .inl hcopy
    · rcases hmem _ hcopy with hf | hg
      · rcases hcopies _ bytes hfile hf with hdone | hg
        · exact .inl hdone
        · exact .inr (.inl (hfs _ hg))
      · exact .inr (.inl hg)
    · right
      rcases hmem _ hlist with hf | hg
      · rcases hlists _ hf with hg | ⟨-, hchildren⟩
        · exact .inr (hfs _ hg)
        · left
          have hfile' : s.tree.node (source ++ x ++ [n]) = some (.file bytes) := by rwa [List.append_assoc]
          have hg := hfs _ (hchildren n bytes hfile')
          rwa [List.append_assoc] at hg
      · exact .inr hg

/-- A directory or a file is put at `g`, and what is new is in the queue; the copies of other files stay. -/
theorem Covered.of_put {t' : Tree} {queue' : List Event} {g : List Name} {z : Node CChar} (h : Covered source backup s)
    (hput : s.tree.CanPut g) (hnode : t'.node = Function.update s.tree.node g (some z))
    (hmem : ∀ e ∈ s.queue, e ∈ queue') (hnew : ∀ e ∈ queue', e ∈ s.queue ∨ ∃ p, EventAt s.watches e p)
    (hdir : z = .dir → g.dropLast ∈ s.watches → Due s.watches EventPc.scans g queue' .check)
    (hfile : ∀ bytes, z = .file bytes → s.tree.node g = some z ∨
      (g.dropLast ∈ s.watches → Due s.watches EventPc.copies g queue' .check))
    (hcopies : ∀ x bytes, backup ++ x = g → s.tree.node g = some (.file bytes) →
      t'.node (source ++ x) = some (.file bytes) → z = .file bytes) :
    Covered source backup { s with tree := t', queue := queue' } := by
  have hkeep : ∀ d, s.tree.node d = some .dir → t'.node d = some .dir := by
    intro d hd
    have hdg : d ≠ g := by
      rintro rfl
      exact hput.not_dir hd
    rw [hnode, Function.update_of_ne hdg, hd]
  have hsound : ∀ f ∈ s.work, f.Sound source backup s.watches t' := fun f hf =>
    (h.frames f hf).mono (List.prefix_refl _) hkeep
  have hwork : ∀ P : Frame → Prop, (P (.events s.queue .check) → P (.events queue' .check)) → (∃ f ∈ s.work, P f) →
      ∃ f ∈ (.events queue' .check :: s.daemon.stack), P f := by
    rintro P hP ⟨f, hf, hPf⟩
    simp only [System.work, List.mem_cons] at hf
    rcases hf with rfl | hf
    · exact ⟨_, List.mem_cons_self .., hP hPf⟩
    · exact ⟨f, List.mem_cons_of_mem _ hf, hPf⟩
  have hdue : ∀ act p, Due s.watches act p s.queue .check → Due s.watches act p queue' .check := by
    intro act p hd
    rw [due_check] at hd ⊢
    obtain ⟨e, he, hact⟩ := hd
    exact ⟨e, hmem e he, hact⟩
  refine ⟨h.source_eq, h.backup_eq, hkeep _ h.source_dir, h.issued, h.tables, fun d hd => hkeep d (h.watched d hd), ?_,
    ?_, ?_, ?_⟩
  · intro f hf
    simp only [System.work, List.mem_cons] at hf
    rcases hf with rfl | hf
    · intro e he
      rcases hnew e he with he | he
      · exact h.queue_sound e he
      · exact he
    · exact hsound f (by simp [System.work, hf])
  · rcases h.root with hroot | hroot
    · exact .inl hroot
    · exact .inr (hwork _ (hdue _ _) hroot)
  · intro d n hd hdn
    by_cases hg : d ++ [n] = g
    · right; left
      subst hg
      have hz : z = .dir := by
        have hdn' : t'.node (d ++ [n]) = some .dir := hdn
        rw [hnode, Function.update_self] at hdn'
        exact Option.some.inj hdn'
      exact ⟨_, List.mem_cons_self .., hdir hz (by simpa using hd)⟩
    · have hdn' : s.tree.node (d ++ [n]) = some .dir := by
        have hdn' : t'.node (d ++ [n]) = some .dir := hdn
        rwa [hnode, Function.update_of_ne hg] at hdn'
      rcases h.dirs d n hd hdn' with hw | hscan | hlist
      · exact .inl hw
      · exact .inr (.inl (hwork _ (hdue _ _) hscan))
      · exact .inr (.inr (hwork _ id hlist))
  · intro x n bytes hd hfn
    have hfn' : t'.node (source ++ (x ++ [n])) = some (.file bytes) := hfn
    have hexact : s.tree.node (backup ++ (x ++ [n])) = some (.file bytes) →
        t'.node (backup ++ (x ++ [n])) = some (.file bytes) := by
      intro hcopy
      by_cases hb : backup ++ (x ++ [n]) = g
      · rw [hb] at hcopy ⊢
        rw [hnode, Function.update_self, hcopies _ bytes hb hcopy hfn']
      · rw [hnode, Function.update_of_ne hb, hcopy]
    have hold : s.tree.node (source ++ (x ++ [n])) = some (.file bytes) →
        t'.node (backup ++ (x ++ [n])) = some (.file bytes) ∨
        (∃ f ∈ (.events queue' .check :: s.daemon.stack), Frame.Copies s.watches (source ++ (x ++ [n])) f) ∨
        ∃ f ∈ (.events queue' .check :: s.daemon.stack), f.Lists (source ++ x) := by
      intro hfile'
      rcases h.files x n bytes hd hfile' with hcopy | hcopy | hlist
      · exact .inl (hexact hcopy)
      · exact .inr (.inl (hwork _ (hdue _ _) hcopy))
      · exact .inr (.inr (hwork _ id hlist))
    by_cases hg : source ++ (x ++ [n]) = g
    · have hz : z = .file bytes := by
        rw [hnode, hg, Function.update_self] at hfn'
        exact Option.some.inj hfn'
      rcases hfile bytes hz with hsame | hqueue
      · exact hold (by rw [hg, hsame, hz])
      · have hd' : g.dropLast ∈ s.watches := by
          rw [← hg, ← List.append_assoc, List.dropLast_concat]
          exact hd
        rw [← hg] at hqueue hd'
        exact .inr (.inl ⟨_, List.mem_cons_self .., hqueue hd'⟩)
    · exact hold (by rwa [hnode, Function.update_of_ne hg] at hfn')

/-- A file that is not a copy is taken away. -/
theorem Covered.of_erase {t' : Tree} {g : List Name} (h : Covered source backup s) (hg : s.tree.node g ≠ some .dir)
    (hnode : t'.node = Function.update s.tree.node g none) (hout : ¬ backup <+: g) :
    Covered source backup { s with tree := t' } := by
  have hkeep : ∀ d, s.tree.node d = some .dir → t'.node d = some .dir := by
    intro d hd
    have hdg : d ≠ g := by
      rintro rfl
      exact hg hd
    rw [hnode, Function.update_of_ne hdg, hd]
  have hback : ∀ p x, t'.node p = some x → s.tree.node p = some x := by
    intro p x hp
    by_cases hpg : p = g
    · rw [hpg, hnode, Function.update_self] at hp
      cases hp
    · rwa [hnode, Function.update_of_ne hpg] at hp
  refine ⟨h.source_eq, h.backup_eq, hkeep _ h.source_dir, h.issued, h.tables, fun d hd => hkeep d (h.watched d hd),
    fun f hf => (h.frames f hf).mono (List.prefix_refl _) hkeep, h.root,
    fun d n hd hdn => h.dirs d n hd (hback _ _ hdn), ?_⟩
  intro x n bytes hd hfn
  rcases h.files x n bytes hd (hback _ _ hfn) with hcopy | hrest
  · left
    have hne : backup ++ (x ++ [n]) ≠ g := by
      rintro rfl
      exact hout (List.prefix_append ..)
    show t'.node _ = _
    rw [hnode, Function.update_of_ne hne, hcopy]
  · exact .inr hrest

/-- The directory that is scanned is watched, and its entries are read next. -/
theorem Covered.of_watch {path1 path2 : Str} {rest : List Frame} (h : Covered source backup s)
    (hstack : s.daemon.stack = .scan path1 path2 .watch :: rest) :
    Covered source backup { s with
      daemon := { s.daemon.addInotify path1 path2 (some (watch s.watches (resolve path1)).2) with
        stack := .scan path1 path2 .readdir :: rest }
      watches := (watch s.watches (resolve path1)).1 } := by
  obtain ⟨x, hmirrors, hdir, -⟩ := h.sound hstack
  obtain ⟨i, hi, hat, hle, hother, hmem⟩ := watch_spec s.watches (resolve path1)
  generalize (watch s.watches (resolve path1)).1 = watches' at hat hle hother hmem ⊢
  rw [hi]
  have hd : resolve path1 ∈ watches' := List.mem_of_getElem? hat
  have hwork : ∀ P P' : Frame → Prop, (∀ f, P f → P' f) → ¬ P (.scan path1 path2 .watch) → (∃ f ∈ s.work, P f) →
      ∃ f ∈ (.events s.queue .check :: .scan path1 path2 .readdir :: rest), P' f := by
    rintro P P' hP hnot ⟨f, hf, hPf⟩
    simp only [System.work, hstack, List.mem_cons] at hf
    rcases hf with rfl | rfl | hf
    · exact ⟨_, List.mem_cons_self .., hP _ hPf⟩
    · exact absurd hPf hnot
    · exact ⟨f, by simp [hf], hP _ hPf⟩
  have hscans : ∀ p, p ≠ resolve path1 → (∃ f ∈ s.work, f.Scans s.watches p) →
      ∃ f ∈ (.events s.queue .check :: .scan path1 path2 .readdir :: rest), f.Scans watches' p :=
    fun p hp => hwork _ _ (fun f hf => hf.mono hle) hp
  have hlists : ∀ d, (∃ f ∈ s.work, f.Lists d) →
      ∃ f ∈ (.events s.queue .check :: .scan path1 path2 .readdir :: rest), f.Lists d :=
    fun d => hwork _ _ (fun f hf => hf) id
  have hlist : ∃ f ∈ (.events s.queue .check :: .scan path1 path2 .readdir :: rest), f.Lists (resolve path1) :=
    ⟨.scan path1 path2 .readdir, by simp, rfl⟩
  refine ⟨h.source_eq, h.backup_eq, h.source_dir, ?_, ?_, ?_, ?_, ?_, ?_, ?_⟩
  · intro j hj
    by_cases hji : j = i
    · simp [State.addInotify, hji]
    · have hlt : j < s.watches.length := (List.getElem?_eq_some_iff.1 (hother j _ hji (List.getElem?_eq_getElem hj))).1
      exact List.mem_cons_of_mem _ (h.issued j hlt)
  · intro j d' hj
    by_cases hji : j = i
    · subst hji
      obtain rfl : resolve path1 = d' := Option.some.inj (hat.symm.trans hj)
      exact ⟨x, path1, path2, hmirrors.source, by simp [State.addInotify], by simp [State.addInotify], hmirrors⟩
    · have hne : j + 1 ≠ i + 1 := by omega
      simpa [State.addInotify, Function.update_of_ne hne] using h.tables j d' (hother j d' hji hj)
  · intro d' hd'
    rcases hmem d' hd' with hd' | rfl
    · exact h.watched d' hd'
    · rw [hmirrors.source]
      exact hdir
  · intro f hf
    simp only [System.work, List.mem_cons] at hf
    rcases hf with rfl | rfl | hf
    · exact (h.frames (.events s.queue .check) (by simp [System.work])).mono hle fun _ hd => hd
    · exact ⟨x, hmirrors, hdir, hmirrors.source ▸ hd⟩
    · exact (h.frames f (by simp [System.work, hstack, hf])).mono hle fun _ hd => hd
  · rcases h.root with hroot | hroot
    · exact .inl (hle.subset hroot)
    · by_cases hp : source = resolve path1
      · left
        rw [hp]
        exact hd
      · exact .inr (hscans _ hp hroot)
  · intro d' n hd' hdn
    by_cases hp : d' ++ [n] = resolve path1
    · left
      rw [hp]
      exact hd
    · rcases hmem d' hd' with hd' | rfl
      · rcases h.dirs d' n hd' hdn with hw | hscan | hl
        · exact .inl (hle.subset hw)
        · exact .inr (.inl (hscans _ hp hscan))
        · exact .inr (.inr (hlists _ hl))
      · exact .inr (.inr hlist)
  · intro y n bytes hd' hfile
    rcases hmem _ hd' with hd' | heq
    · rcases h.files y n bytes hd' hfile with hcopy | hcopy | hl
      · exact .inl hcopy
      · exact .inr (.inl (hwork _ _ (fun f hf => hf.mono hle) id hcopy))
      · exact .inr (.inr (hlists _ hl))
    · right; right
      rw [heq]
      exact hlist

/-- The tables give the two paths of the entry that an event is about. -/
theorem Covered.mirrors_of_eventAt {e : Event} {p : List Name} (h : Covered source backup s)
    (hat : EventAt s.watches e p) : ∃ x path1 path2, p = source ++ x ∧ s.daemon.wds e.wd = some path1 ∧
      s.daemon.backs e.wd = some path2 ∧ Mirrors source backup (join path1 e.name) (join path2 e.name) x := by
  obtain ⟨i, d, n, hwd, hd, hname, rfl⟩ := hat
  obtain ⟨x, path1, path2, rfl, hpath1, hpath2, hmirrors⟩ := h.tables i d hd
  rw [hwd, hname]
  exact ⟨x ++ [n], path1, path2, List.append_assoc .., hpath1, hpath2, hmirrors.join n⟩

/-- `monitor_events` goes on with its first event, or with the next one, after the calls `pre`. -/
theorem Covered.of_event {e : Event} {es evs : List Event} {pc : EventPc} {rest : List Frame} {p : List Name}
    (h : Covered source backup s) (pre : List Frame) (pc' : EventPc)
    (hstack : s.daemon.stack = .events (e :: es) pc :: rest) (hat : EventAt s.watches e p)
    (hevs : evs = e :: es ∨ (evs = es ∧ pc' = .check))
    (hsound : ∀ g ∈ pre, g.Sound source backup s.watches s.tree)
    (hscans : s.tree.node p = some .dir → pc.scans e →
      (∃ g ∈ pre, g.Scans s.watches p) ∨ (evs = e :: es ∧ pc'.scans e))
    (hcopies : ∀ x bytes, p = source ++ x → s.tree.node p = some (.file bytes) → pc.copies e →
      s.tree.node (backup ++ x) = some (.file bytes) ∨ (evs = e :: es ∧ pc'.copies e)) :
    Covered source backup { s with daemon := { s.daemon with stack := (pre ++ [.events evs pc']) ++ rest } } := by
  have htail : ∀ act p, (∃ e' ∈ es, act .check e' ∧ EventAt s.watches e' p) → Due s.watches act p evs pc' := by
    intro act p hdue
    rcases hevs with rfl | ⟨rfl, rfl⟩
    · exact .inr hdue
    · exact due_check.2 hdue
  have hhead : ∀ act, evs = e :: es → act pc' e → Due s.watches act p evs pc' := by
    rintro act rfl hact
    exact .inl ⟨hact, hat⟩
  have hlast : ∀ P : Frame → Prop, P (.events evs pc') → ∃ g ∈ pre ++ [.events evs pc'], P g :=
    fun P hP => ⟨_, by simp, hP⟩
  refine h.of_top (pre ++ [.events evs pc']) hstack ?_ ?_ ?_ (fun d hd => absurd hd id)
  · intro g hg
    rcases List.mem_append.1 hg with hg | hg
    · exact hsound g hg
    · obtain rfl := List.mem_singleton.1 hg
      intro e' he'
      have hold := h.sound hstack
      rcases hevs with rfl | ⟨rfl, rfl⟩
      · exact hold e' he'
      · exact hold e' (List.mem_cons_of_mem _ he')
  · rintro q hdir (⟨hact, hq⟩ | hdue)
    · obtain rfl := hat.unique hq
      rcases hscans hdir hact with ⟨g, hg, hscan⟩ | ⟨heq, hact'⟩
      · exact ⟨g, List.mem_append_left _ hg, hscan⟩
      · exact hlast _ (hhead _ heq hact')
    · exact hlast _ (htail _ q hdue)
  · rintro x bytes hfile (⟨hact, hq⟩ | hdue)
    · obtain rfl := hat.unique hq
      rcases hcopies x bytes rfl hfile hact with hdone | ⟨heq, hact'⟩
      · exact .inl hdone
      · exact .inr (hlast _ (hhead _ heq hact'))
    · exact .inr (hlast _ (htail _ _ hdue))

/-- Events move from the queue to the buffer of `monitor_events`. -/
theorem Covered.of_read {pc : EventPc} {rest : List Frame} (h : Covered source backup s)
    (hstack : s.daemon.stack = .events [] pc :: rest) (m : Nat) :
    Covered source backup { s with
      daemon := { s.daemon with stack := .events (s.queue.take m) .check :: rest }, queue := s.queue.drop m } := by
  have hdue : ∀ act p, Due s.watches act p s.queue .check →
      Due s.watches act p (s.queue.drop m) .check ∨ Due s.watches act p (s.queue.take m) .check := by
    intro act p hd
    simp only [due_check] at hd ⊢
    obtain ⟨e, he, hact⟩ := hd
    rw [← List.take_append_drop m s.queue] at he
    rcases List.mem_append.1 he with he | he
    · exact .inr ⟨e, he, hact⟩
    · exact .inl ⟨e, he, hact⟩
  have hmem : ∀ P : Frame → Prop, (P (.events s.queue .check) → P (.events (s.queue.drop m) .check) ∨
      P (.events (s.queue.take m) .check)) → ¬ P (.events [] pc) → (∃ f ∈ s.work, P f) →
      ∃ f ∈ (.events (s.queue.drop m) .check :: .events (s.queue.take m) .check :: rest), P f := by
    rintro P hP hnil ⟨f, hf, hPf⟩
    simp only [System.work, hstack, List.mem_cons] at hf
    rcases hf with rfl | rfl | hf
    · rcases hP hPf with hPf | hPf
      · exact ⟨_, List.mem_cons_self .., hPf⟩
      · exact ⟨_, List.mem_cons_of_mem _ (List.mem_cons_self ..), hPf⟩
    · exact absurd hPf hnil
    · exact ⟨f, by simp [hf], hPf⟩
  refine ⟨h.source_eq, h.backup_eq, h.source_dir, h.issued, h.tables, h.watched, ?_, ?_, ?_, ?_⟩
  · intro f hf
    simp only [System.work, List.mem_cons] at hf
    rcases hf with rfl | rfl | hf
    · exact fun e he => h.queue_sound e (List.mem_of_mem_drop he)
    · exact fun e he => h.queue_sound e (List.mem_of_mem_take he)
    · exact h.frames f (by simp [System.work, hstack, hf])
  · rcases h.root with hroot | hroot
    · exact .inl hroot
    · exact .inr (hmem _ (hdue _ _) id hroot)
  · intro d n hd hdn
    rcases h.dirs d n hd hdn with hw | hscan | hlist
    · exact .inl hw
    · exact .inr (.inl (hmem _ (hdue _ _) id hscan))
    · exact .inr (.inr (hmem _ (fun h => absurd h id) id hlist))
  · intro x n bytes hd hfile
    rcases h.files x n bytes hd hfile with hcopy | hcopy | hlist
    · exact .inl hcopy
    · exact .inr (.inl (hmem _ (hdue _ _) id hcopy))
    · exact .inr (.inr (hmem _ (fun h => absurd h id) id hlist))

end Keep

end UnixTasks.Daemon
