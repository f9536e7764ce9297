import UnixTasks.Daemon.Scan

/-!
# The test for the backup directory

`monitor_directory` does not go into a directory whose path is spelled like the backup path.  The path that it has put
together down to a directory is the source path, a slash and a name for every step (`spell`), so the test finds the
backup directory if the backup path is spelled in that way, and misses it in every other spelling.

* (`Guarded`) when the test is enough, or not needed;
* (`not_leads_of_spelling`) a way down to a backup directory that the test misses;
* (`leads_iff_guarded`) the scan comes to an end without getting into the backup directory if and only if it is
  guarded.
-/

namespace UnixTasks.Daemon

open ActionSystem CChar

/-- The source directory is not there; or it does not lie in the backup directory, and a backup directory that lies in
it is spelled as the scan spells it, or is not there and cannot be made. -/
def Guarded (t : Tree) (argv1 argv2 : Str) : Prop :=
  t.node (resolve argv1) ≠ some .dir ∨ (¬ resolve argv2 <+: resolve argv1 ∧
    ∀ y, resolve argv1 ++ y = resolve argv2 → spell argv1 y = argv2 ∨ Blocked t (resolve argv2))

/-! ### A way into the backup directory -/

section Down

variable {argv1 argv2 path1 path2 : Str} {s t : System} {rest : List Frame}

private theorem not_scanned {pc : ScanPc} (hstack : s.daemon.stack = .scan path1 path2 pc :: rest) : ¬ s.Scanned := by
  intro h
  rw [System.Scanned, hstack] at h
  cases h

/-- A scan that leads to the end leads there after one step more. -/
private theorem leads_next {pc : ScanPc} {a : SysAction} (h : Leads System.step System.Safe System.Scanned s)
    (hstack : s.daemon.stack = .scan path1 path2 pc :: rest) (hstep : s.step a = some t) :
    Leads System.step System.Safe System.Scanned t := (h.cases (not_scanned hstack)).2 a t hstep

/-- The backup directory is scanned. -/
private theorem not_leads_of_open (hpath : s.daemon.pathArgv2 = argv2)
    (hstack : s.daemon.stack = .scan path1 path2 .start :: rest) (hguard : path1 ≠ argv2)
    (hdir : s.tree.node (resolve path1) = some .dir) (hle : resolve argv2 <+: resolve path1) :
    ¬ Leads System.step System.Safe System.Scanned s := by
  intro h
  have hstep := step_open [] 0 hstack (hpath ▸ hguard) hdir
  have hopen := leads_next h hstack hstep
  have hsafe := (hopen.cases (not_scanned (goto_stack ..))).1 (.scan path1 path2 .mkdir) (List.mem_cons_self ..)
    ScanPc.noConfusion
  rw [System.backup, goto_pathArgv2, hpath] at hsafe
  exact hsafe hle

/-- From the call for a directory to the call for the directory `n` in it, which `readdir` returns first. -/
private theorem leads_child {n : Name} (h : Leads System.step System.Safe System.Scanned s)
    (hstack : s.daemon.stack = .scan path1 path2 .start :: rest) (hguard : path1 ≠ s.daemon.pathArgv2)
    (hdir : s.tree.node (resolve path1) = some .dir)
    (hchild : (mkdir s.tree (resolve path2)).node (resolve path1 ++ [n]) = some .dir) :
    ∃ t rest', Leads System.step System.Safe System.Scanned t ∧ t.daemon.pathArgv2 = s.daemon.pathArgv2 ∧
      t.tree = mkdir s.tree (resolve path2) ∧
      t.daemon.stack = .scan (join path1 n.text) (join path2 n.text) .start :: rest' := by
  have h := leads_next h hstack (step_open [] 0 hstack hguard hdir)
  have h := leads_next h (goto_stack ..) (step_mkdir [] 0 (goto_stack ..))
  have hscan : (mkdir s.tree (resolve path2)).node (resolve path1) = some .dir := mkdir_node_dir hdir
  have h := leads_next h rfl (step_watch [] 0 rfl hscan)
  have hmem : ⟨n.text, true⟩ ∈ entries (mkdir s.tree (resolve path2)) (resolve path1) := by
    rw [mem_entries]
    refine .inr (.inr ⟨n, ?_, ?_⟩)
    · rw [hchild]
      exact Option.some_ne_none _
    · rw [hchild, decide_eq_true rfl]
  have hperm := (List.perm_cons_erase hmem).symm
  have h := leads_next h rfl ((step_readdir _ 0 rfl).trans (if_pos hperm))
  have h := leads_next h (goto_stack ..) (step_enter [] 0 (goto_stack ..))
  exact ⟨_, _, h, rfl, rfl, goto_stack ..⟩

/-- From the directory `x` on, `readdir` returns first the name on the way to the backup directory. -/
theorem not_leads_of_spelling {x z : List Name} (hpath : s.daemon.pathArgv2 = argv2)
    (heq : resolve argv1 ++ (x ++ z) = resolve argv2) (hspell : spell argv1 (x ++ z) ≠ argv2)
    (hstack : s.daemon.stack = .scan (spell argv1 x) (spell argv2 x) .start :: rest)
    (hdir : s.tree.node (resolve argv2) = some .dir ∨
      (x = [] ∧ s.tree.node (resolve argv1) = some .dir ∧ ¬ Blocked s.tree (resolve argv2))) :
    ¬ Leads System.step System.Safe System.Scanned s := by
  induction z generalizing x s rest with
  | nil =>
    rw [List.append_nil] at heq hspell
    apply not_leads_of_open hpath hstack hspell
    · rw [resolve_spell, heq]
      rcases hdir with hdir | ⟨rfl, hdir, -⟩
      · exact hdir
      · rwa [← heq, List.append_nil]
    · rw [resolve_spell, heq]
  | cons n z ih =>
    intro h
    have hstep : x ++ n :: z = x ++ [n] ++ z := by rw [List.append_assoc]; rfl
    have hguard : spell argv1 x ≠ s.daemon.pathArgv2 := by
      intro hx
      rw [hpath] at hx
      have hlen := congrArg (fun path => (resolve path).length) hx
      simp only [resolve_spell, ← heq, List.length_append, List.length_cons] at hlen
      omega
    -- what lies above a backup directory that is there
    have habove : ∀ t : Tree, t.node (resolve argv2) = some .dir → ∀ x' z', x' ++ z' = x ++ n :: z →
        t.node (resolve argv1 ++ x') = some .dir := by
      intro t ht x' z' hx'
      by_cases hz : z' = []
      · rw [hz, List.append_nil] at hx'
        rw [hx', heq, ht]
      · apply t.node_of_append hz
        rw [List.append_assoc, hx', heq, ht]
        exact Option.some_ne_none _
    have hopen : s.tree.node (resolve (spell argv1 x)) = some .dir := by
      rw [resolve_spell]
      rcases hdir with hdir | ⟨rfl, hdir, -⟩
      · exact habove _ hdir x (n :: z) rfl
      · rw [List.append_nil]
        exact hdir
    have hmade : (mkdir s.tree (resolve (spell argv2 x))).node (resolve argv2) = some .dir := by
      rcases hdir with hdir | ⟨rfl, -, hblocked⟩
      · exact mkdir_node_dir hdir
      · exact mkdir_node_self hblocked
    have hchild : (mkdir s.tree (resolve (spell argv2 x))).node (resolve (spell argv1 x) ++ [n]) = some .dir := by
      rw [resolve_spell argv1, List.append_assoc]
      exact habove _ hmade (x ++ [n]) z hstep.symm
    obtain ⟨t, rest', ht, hpath', htree, hstack'⟩ := leads_child h hstack hguard hopen hchild
    rw [← spell_append_singleton, ← spell_append_singleton] at hstack'
    rw [hstep] at heq hspell
    refine ih (hpath'.trans hpath) heq hspell hstack' (.inl ?_) ht
    rw [htree]
    exact hmade

end Down

/-- What `main` calls `monitor_directory` with. -/
private theorem boot_eq {argv1 argv2 : Str} {t : Tree} {s₀ : System} (h₀ : boot argv1 argv2 t = some s₀) :
    argv1 ≠ argv2 ∧ s₀.daemon.pathArgv2 = argv2 ∧ s₀.tree = t ∧
      s₀.daemon.stack = [.scan argv1 argv2 .start, .caller none false] := by
  obtain ⟨d, hmain, rfl⟩ := Option.map_eq_some_iff.1 h₀
  obtain ⟨hne, rfl⟩ := main_eq_some hmain
  exact ⟨hne, rfl, rfl, rfl⟩

/-- Without a source directory the scan returns at once. -/
private theorem leads_of_no_source {argv1 argv2 : Str} {t : Tree} {s₀ : System} (h₀ : boot argv1 argv2 t = some s₀)
    (hdir : t.node (resolve argv1) ≠ some .dir) : Leads System.step System.Safe System.Scanned s₀ := by
  obtain ⟨hne, hpath, htree, hstack⟩ := boot_eq h₀
  rw [← hpath] at hne
  rw [← htree] at hdir
  refine leads_of_step hstack ?_ (fun order more => step_not_open order more hstack hne hdir) (.now rfl)
  intro f hf
  rw [hstack] at hf
  rcases List.mem_pair.1 hf with rfl | rfl
  · exact fun hpc => absurd rfl hpc
  · trivial

theorem guarded_of_leads {argv1 argv2 : Str} {t : Tree} {s₀ : System} (h₀ : boot argv1 argv2 t = some s₀)
    (h : Leads System.step System.Safe System.Scanned s₀) : Guarded t argv1 argv2 := by
  obtain ⟨hne, hpath, htree, hstack⟩ := boot_eq h₀
  by_contra hnot
  rw [Guarded, not_or, not_not] at hnot
  obtain ⟨hdir, hnot⟩ := hnot
  rw [← htree] at hdir
  have hout : ¬ resolve argv2 <+: resolve argv1 := fun hle => not_leads_of_open hpath hstack hne hdir hle h
  apply hnot
  refine ⟨hout, fun y heq => ?_⟩
  by_contra hy
  rw [not_or, ← htree] at hy
  exact not_leads_of_spelling (x := []) hpath heq hy.1 hstack (.inr ⟨rfl, hdir, hy.2⟩) h

/-- For every finite source tree and all pairs of arguments that `main` accepts, in buffers and tables that have room
for everything: the scan comes to an end without getting into the backup directory if and only if it is guarded. -/
theorem leads_iff_guarded {argv1 argv2 : Str} {t : Tree} {s₀ : System} (h₀ : boot argv1 argv2 t = some s₀) {N : Nat}
    (hfin : ∀ x, t.node (resolve argv1 ++ x) ≠ none → x.length ≤ N) :
    Leads System.step System.Safe System.Scanned s₀ ↔ Guarded t argv1 argv2 := by
  refine ⟨guarded_of_leads h₀, ?_⟩
  rintro (hdir | ⟨hout, hguard⟩)
  · exact leads_of_no_source h₀ hdir
  · exact leads_scan h₀ hfin hout hguard

end UnixTasks.Daemon
