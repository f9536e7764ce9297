import UnixTasks.Daemon.Backup

/-!
# The scan of a tree

A call of `monitor_directory` walks the source directory and makes directories and copies in the backup directory, which
may lie in the source directory itself.  What it does outside of the backup directory is to read: as long as it does not
get into the backup directory, it walks a finite tree that does not change, and comes to an end.

* (`spell`) the path that the calls put together, name by name;
* (`leads_of_step`) one step of a scan;
* (`Walk`) what a scan keeps, `Safe` what is wanted of it;
* (`leads_scan`) the scan comes to an end, and is safe all the time, if the test of `monitor_directory` stops it at the
  backup directory, or the backup directory cannot be made.
-/

namespace UnixTasks.Daemon

open ActionSystem CChar

/-- The path of `x` seen from `path`, as `monitor_directory` puts it together. -/
def spell (path : Str) (x : List Name) : Str := x.foldl (fun path n => join path n.text) path

theorem spell_append_singleton (path : Str) (x : List Name) (n : Name) :
    spell path (x ++ [n]) = join (spell path x) n.text := by
  rw [spell, List.foldl_append]
  rfl

theorem resolve_spell (path : Str) (x : List Name) : resolve (spell path x) = resolve path ++ x := by
  induction x using List.reverseRecOn with
  | nil => exact (List.append_nil _).symm
  | append_singleton x n ih => rw [spell_append_singleton, resolve_join, ih, List.append_assoc]

/-! ### One step -/

section Step

variable {s : System} {path1 path2 : Str} {rest : List Frame} {I Q : System → Prop} {pc : ScanPc}

/-- A step that leaves no choice. -/
theorem leads_of_step {t : System} (hstack : s.daemon.stack = .scan path1 path2 pc :: rest) (hI : I s)
    (hstep : ∀ order more, s.step (.daemon order more) = some t) (h : Leads System.step I Q t) :
    Leads System.step I Q s := by
  refine .later hI (hstep [] 0) fun a t' ha => ?_
  cases a with
  | daemon order more =>
    obtain rfl : t = t' := Option.some.inj ((hstep order more).symm.trans ha)
    exact h
  | change c =>
    simp only [System.step, (next_of_scan hstack).2, Bool.false_eq_true, false_and, if_false] at ha
    cases ha

/-- `readdir` gives the entries in any order. -/
private theorem leads_of_readdir (hstack : s.daemon.stack = .scan path1 path2 .readdir :: rest) (hI : I s)
    (h : ∀ order, order.Perm (entries s.tree (resolve path1)) →
      Leads System.step I Q (s.goto (.scan path1 path2 (.entries order) :: rest))) : Leads System.step I Q s := by
  have hstep : s.step (.daemon (entries s.tree (resolve path1)) 0) = some _ :=
    (step_readdir _ 0 hstack).trans (if_pos (List.Perm.refl _))
  refine .later hI hstep fun a t ha => ?_
  cases a with
  | daemon order more =>
    rw [step_readdir order more hstack] at ha
    split at ha
    · rename_i hperm
      obtain rfl := Option.some.inj ha
      exact h order hperm
    · cases ha
  | change c =>
    simp only [System.step, (next_of_scan hstack).2, Bool.false_eq_true, false_and, if_false] at ha
    cases ha

end Step

/-! ### What a scan keeps -/

/-- There is no directory at the path, and none can be made: there is a file, or no directory to make it in. -/
structure Blocked (t : Tree) (p : List Name) : Prop where
  not_dir : t.node p ≠ some .dir
  not_made : t.node p = none → t.node p.dropLast ≠ some .dir

theorem Blocked.congr {t t' : Tree} {p : List Name} (h : Blocked t p) (hp : t'.node p = t.node p)
    (hparent : t'.node p.dropLast = t.node p.dropLast) : Blocked t' p := by
  constructor
  · rw [hp]
    exact h.not_dir
  · rw [hp, hparent]
    exact h.not_made

theorem mkdir_node_dir {t : Tree} {p q : List Name} (h : t.node q = some .dir) : (mkdir t p).node q = some .dir := by
  by_cases hq : q = p
  · subst hq
    have hnot : ¬ (t.node q = none ∧ t.CanPut q) := fun hcan => hcan.2.not_dir h
    rw [mkdir_of_not hnot, h]
  · rw [mkdir_node_of_ne hq, h]

/-- A directory that is not there and is not blocked is made. -/
theorem mkdir_node_self {t : Tree} {p : List Name} (h : ¬ Blocked t p) : (mkdir t p).node p = some .dir := by
  by_cases hdir : t.node p = some .dir
  · exact mkdir_node_dir hdir
  · have hmade : ¬ (t.node p = none → t.node p.dropLast ≠ some .dir) := fun hmade => h ⟨hdir, hmade⟩
    rw [Classical.not_imp, not_not] at hmade
    obtain ⟨hnone, hparent⟩ := hmade
    have hne : p ≠ [] := by
      rintro rfl
      exact hdir t.root
    rw [mkdir_node hnone ⟨hne, hparent, hdir⟩, Function.update_self]

/-- The function scans no directory that is the backup directory or lies in it. -/
def Frame.Safe (backup : List Name) : Frame → Prop
  | .scan path1 _ pc => pc ≠ .start → ¬ backup <+: resolve path1
  | _ => True

def System.Safe (s : System) : Prop := ∀ f ∈ s.daemon.stack, f.Safe s.backup

/-- A scan from the tree `t₀`: it changes the backup directory only. -/
structure Walk (t₀ : Tree) (argv2 : Str) (s : System) : Prop where
  path : s.daemon.pathArgv2 = argv2
  outside : ∀ p, ¬ resolve argv2 <+: p → s.tree.node p = t₀.node p
  blocked : Blocked t₀ (resolve argv2) → Blocked s.tree (resolve argv2)

section Walk

variable {t₀ : Tree} {argv1 argv2 : Str} {s : System} {rest : List Frame} {x : List Name}

theorem Walk.goto (h : Walk t₀ argv2 s) (stack : List Frame) : Walk t₀ argv2 (s.goto stack) :=
  ⟨h.path, h.outside, h.blocked⟩

/-- Something is put into the backup directory. -/
theorem Walk.of_put {t' : Tree} (h : Walk t₀ argv2 s) (stack : List Frame) (queue : List Event)
    (hnode : ∀ p, p ≠ resolve argv2 ++ x → t'.node p = s.tree.node p)
    (hblocked : x = [] → Blocked s.tree (resolve argv2) → Blocked t' (resolve argv2)) :
    Walk t₀ argv2 { s.goto stack with tree := t', queue := queue } := by
  refine ⟨h.path, fun p hp => ?_, fun hb => ?_⟩
  · have hne : p ≠ resolve argv2 ++ x := by
      rintro rfl
      exact hp (List.prefix_append ..)
    exact (hnode p hne).trans (h.outside p hp)
  · by_cases hx : x = []
    · exact hblocked hx (h.blocked hb)
    · -- neither the backup directory nor its parent is at a place below it
      have hlen : 0 < x.length := List.length_pos_of_ne_nil hx
      have hbelow : ∀ p : List Name, p.length ≤ (resolve argv2).length → p ≠ resolve argv2 ++ x := by
        intro p hp heq
        rw [heq, List.length_append] at hp
        omega
      refine (h.blocked hb).congr (hnode _ (hbelow _ (Nat.le_refl _))) (hnode _ (hbelow _ ?_))
      rw [List.length_dropLast]
      omega

theorem Walk.of_mkdir (h : Walk t₀ argv2 s) (stack : List Frame) (queue : List Event) :
    Walk t₀ argv2 { s.goto stack with tree := mkdir s.tree (resolve argv2 ++ x), queue := queue } := by
  refine h.of_put stack queue (fun p hp => mkdir_node_of_ne hp) fun hx hblocked => ?_
  have hnot : ¬ (s.tree.node (resolve argv2 ++ x) = none ∧ s.tree.CanPut (resolve argv2 ++ x)) := by
    rw [hx, List.append_nil]
    exact fun hcan => hblocked.not_made hcan.1 hcan.2.parent
  rw [mkdir_of_not hnot]
  exact hblocked

theorem Walk.of_copy (h : Walk t₀ argv2 s) (p : List Name) (hx : x ≠ []) (stack : List Frame) (queue : List Event) :
    Walk t₀ argv2 { s.goto stack with tree := copy s.tree p (resolve argv2 ++ x), queue := queue } :=
  h.of_put stack queue (fun _ hr => copy_node_of_ne hr) fun hnil => absurd hnil hx

theorem Walk.of_watch (h : Walk t₀ argv2 s) (path1 path2 : Str) (wd : Nat) (stack : List Frame)
    (ws : List (List Name)) : Walk t₀ argv2 { s with
      daemon := { s.daemon.addInotify path1 path2 (some wd) with stack := stack }
      watches := ws } := ⟨h.path, h.outside, h.blocked⟩

private theorem Walk.safe (h : Walk t₀ argv2 s) {path1 path2 : Str} {pc : ScanPc}
    (hstack : s.daemon.stack = .scan path1 path2 pc :: rest) (hrest : ∀ f ∈ rest, f.Safe (resolve argv2))
    (hpc : pc ≠ .start → ¬ resolve argv2 <+: resolve path1) : s.Safe := by
  intro f hf
  rw [System.backup, h.path]
  rw [hstack] at hf
  rcases List.mem_cons.1 hf with rfl | hf
  · exact hpc
  · exact hrest f hf

/-! ### The scan comes to an end -/

variable {Q : System → Prop}

/-- Whatever the call of `monitor_directory` for `x` returns to goes on well, and so does the call. -/
def Returns (t₀ : Tree) (argv1 argv2 : Str) (Q : System → Prop) (x : List Name) : Prop :=
  ∀ s rest, Walk t₀ argv2 s → (∀ f ∈ rest, f.Safe (resolve argv2)) →
    s.daemon.stack = .scan (spell argv1 x) (spell argv2 x) .start :: rest →
    (∀ s', Walk t₀ argv2 s' → s'.daemon.stack = rest → Leads System.step System.Safe Q s') →
    Leads System.step System.Safe Q s

/-- The loop over the entries, by induction on them. -/
private theorem leads_entries (hclear : ¬ resolve argv2 <+: resolve argv1 ++ x)
    (hchild : ∀ n, Returns t₀ argv1 argv2 Q (x ++ [n])) (hrest : ∀ f ∈ rest, f.Safe (resolve argv2))
    (hnext : ∀ s', Walk t₀ argv2 s' → s'.daemon.stack = rest → Leads System.step System.Safe Q s')
    {es : List Entry} (hes : ∀ e ∈ es, (e.name = [chr '.'] ∨ e.name = [chr '.', chr '.']) ∨ ∃ n : Name, e.name = n.text)
    (h : Walk t₀ argv2 s) (hstack : s.daemon.stack = .scan (spell argv1 x) (spell argv2 x) (.entries es) :: rest) :
    Leads System.step System.Safe Q s := by
  have hscan : ∀ pc : ScanPc, (Frame.scan (spell argv1 x) (spell argv2 x) pc).Safe (resolve argv2) := by
    intro pc _
    rw [resolve_spell]
    exact hclear
  induction es generalizing s with
  | nil =>
    apply leads_of_step hstack (h.safe hstack hrest (hscan _)) fun order more => step_end order more hstack
    exact hnext _ (h.goto rest) rfl
  | cons e es ih =>
    obtain ⟨he, htail⟩ := List.forall_mem_cons.1 hes
    have hsafe := h.safe hstack hrest (hscan _)
    rcases he with hdots | ⟨n, hname⟩
    · apply leads_of_step hstack hsafe fun order more => step_skip order more hstack hdots
      exact ih htail (h.goto _) rfl
    · obtain ⟨name, isDir⟩ := e
      obtain rfl : name = n.text := hname
      cases isDir with
      | true =>
        apply leads_of_step hstack hsafe fun order more => step_enter order more hstack
        refine hchild n _ (.scan (spell argv1 x) (spell argv2 x) (.entries es) :: rest) (h.goto _) ?_ ?_ ?_
        · exact List.forall_mem_cons.2 ⟨hscan _, hrest⟩
        · rw [spell_append_singleton, spell_append_singleton]
          rfl
        · exact fun s' h' hstack' => ih htail h' hstack'
      | false =>
        apply leads_of_step hstack hsafe fun order more => step_copy order more hstack
        refine ih htail ?_ rfl
        rw [resolve_join (spell argv2 x), resolve_spell, List.append_assoc]
        exact h.of_copy _ (List.append_ne_nil_of_right_ne_nil _ (List.cons_ne_nil _ _)) _ _

/-- A directory that is scanned: it is made in the backup directory, watched and read. -/
private theorem leads_enter (hclear : ¬ resolve argv2 <+: resolve argv1 ++ x)
    (hdir : t₀.node (resolve argv1 ++ x) = some .dir)
    (hchild : ∀ n, Returns t₀ argv1 argv2 Q (x ++ [n])) (hrest : ∀ f ∈ rest, f.Safe (resolve argv2))
    (hnext : ∀ s', Walk t₀ argv2 s' → s'.daemon.stack = rest → Leads System.step System.Safe Q s')
    (h : Walk t₀ argv2 s) (hstack : s.daemon.stack = .scan (spell argv1 x) (spell argv2 x) .mkdir :: rest) :
    Leads System.step System.Safe Q s := by
  have hsafe : ∀ {s : System} {pc : ScanPc}, Walk t₀ argv2 s →
      s.daemon.stack = .scan (spell argv1 x) (spell argv2 x) pc :: rest → s.Safe := by
    intro s pc h hstack
    refine h.safe hstack hrest fun _ => ?_
    rw [resolve_spell]
    exact hclear
  have hnode : ∀ {s : System}, Walk t₀ argv2 s → s.tree.node (resolve (spell argv1 x)) = some .dir := by
    intro s h
    rw [resolve_spell, h.outside _ hclear, hdir]
  apply leads_of_step hstack (hsafe h hstack) fun order more => step_mkdir order more hstack
  rw [resolve_spell argv2]
  have hmkdir := h.of_mkdir (x := x) (.scan (spell argv1 x) (spell argv2 x) .watch :: rest)
    (notifyMkdir s.tree s.watches (resolve argv2 ++ x) s.queue)
  apply leads_of_step rfl (hsafe hmkdir rfl) fun order more => step_watch order more rfl (hnode hmkdir)
  have hwatch := hmkdir.of_watch (spell argv1 x) (spell argv2 x) (watch s.watches (resolve (spell argv1 x))).2
    (.scan (spell argv1 x) (spell argv2 x) .readdir :: rest) (watch s.watches (resolve (spell argv1 x))).1
  apply leads_of_readdir rfl (hsafe hwatch rfl)
  intro order hperm
  refine leads_entries hclear hchild hrest hnext ?_ (hwatch.goto _) rfl
  intro e he
  rcases mem_entries.1 (hperm.mem_iff.1 he) with rfl | rfl | ⟨n, -, rfl⟩
  · exact .inl (.inl rfl)
  · exact .inl (.inr rfl)
  · exact .inr ⟨n, rfl⟩

/-- A call returns at once, or it enters a directory that is not the backup directory: the test of the path stops it
there, or there is none. -/
private theorem returns_of_enter
    (hguard : ∀ y, resolve argv1 ++ y = resolve argv2 → spell argv1 y = argv2 ∨ Blocked t₀ (resolve argv2))
    (hx : resolve argv2 <+: resolve argv1 ++ x → resolve argv1 ++ x = resolve argv2)
    (henter : ¬ resolve argv2 <+: resolve argv1 ++ x → t₀.node (resolve argv1 ++ x) = some .dir →
      ∀ n, Returns t₀ argv1 argv2 Q (x ++ [n])) : Returns t₀ argv1 argv2 Q x := by
  intro s rest h hrest hstack hnext
  have hsafe : s.Safe := h.safe hstack hrest fun hpc => absurd rfl hpc
  by_cases hpath : spell argv1 x = argv2
  · apply leads_of_step hstack hsafe fun order more => step_guard order more hstack (hpath.trans h.path.symm)
    exact hnext _ (h.goto rest) rfl
  · have hne : spell argv1 x ≠ s.daemon.pathArgv2 := by rwa [h.path]
    by_cases hdir : s.tree.node (resolve (spell argv1 x)) = some .dir
    · apply leads_of_step hstack hsafe fun order more => step_open order more hstack hne hdir
      rw [resolve_spell] at hdir
      -- the test has let it pass, so that it is not the backup directory
      have hclear : ¬ resolve argv2 <+: resolve argv1 ++ x := by
        intro hle
        have heq := hx hle
        rcases hguard x heq with hspell | hblocked
        · exact hpath hspell
        · rw [heq] at hdir
          exact (h.blocked hblocked).not_dir hdir
      have hdir₀ : t₀.node (resolve argv1 ++ x) = some .dir := by rw [← h.outside _ hclear, hdir]
      exact leads_enter hclear hdir₀ (henter hclear hdir₀) hrest hnext (h.goto _) rfl
    · apply leads_of_step hstack hsafe fun order more => step_not_open order more hstack hne hdir
      exact hnext _ (h.goto rest) rfl

/-- By induction on how much deeper the tree can be. -/
theorem returns_of_finite {N : Nat} (hfin : ∀ x, t₀.node (resolve argv1 ++ x) ≠ none → x.length ≤ N)
    (hguard : ∀ y, resolve argv1 ++ y = resolve argv2 → spell argv1 y = argv2 ∨ Blocked t₀ (resolve argv2))
    {k : Nat} (hk : N < x.length + k) (hx : resolve argv2 <+: resolve argv1 ++ x → resolve argv1 ++ x = resolve argv2) :
    Returns t₀ argv1 argv2 Q x := by
  induction k generalizing x with
  | zero =>
    refine returns_of_enter hguard hx fun _ hdir => ?_
    have hle := hfin x (by rw [hdir]; exact Option.some_ne_none _)
    omega
  | succ k ih =>
    refine returns_of_enter hguard hx fun hclear _ n => ?_
    apply ih
    · rw [List.length_append, List.length_singleton]
      omega
    · intro hle
      rw [← List.append_assoc] at hle ⊢
      rcases List.prefix_concat_iff.1 hle with heq | hle
      · exact heq.symm
      · exact absurd hle hclear

end Walk

/-- The call of `monitor_directory` in `main` has returned. -/
def System.Scanned (s : System) : Prop := s.daemon.stack = [.caller none false]

/-- The scan comes to an end and gets into no directory of the backup directory, if the source directory does not lie in
it, and the test of the path stops the scan at the backup directory or there can be none. -/
theorem leads_scan {argv1 argv2 : Str} {t₀ : Tree} {s₀ : System} (h₀ : boot argv1 argv2 t₀ = some s₀) {N : Nat}
    (hfin : ∀ x, t₀.node (resolve argv1 ++ x) ≠ none → x.length ≤ N) (hout : ¬ resolve argv2 <+: resolve argv1)
    (hguard : ∀ y, resolve argv1 ++ y = resolve argv2 → spell argv1 y = argv2 ∨ Blocked t₀ (resolve argv2)) :
    Leads System.step System.Safe System.Scanned s₀ := by
  obtain ⟨d, hmain, rfl⟩ := Option.map_eq_some_iff.1 h₀
  obtain ⟨-, rfl⟩ := main_eq_some hmain
  have hreturns : Returns t₀ argv1 argv2 System.Scanned [] := by
    refine returns_of_finite (k := N + 1) hfin hguard (by rw [List.length_nil]; omega) ?_
    rw [List.append_nil]
    exact fun hle => absurd hle hout
  refine hreturns _ [.caller none false] ⟨rfl, fun _ _ => rfl, id⟩ ?_ rfl ?_
  · exact List.forall_mem_singleton.2 trivial
  · exact fun s' _ hstack => .now hstack

end UnixTasks.Daemon
