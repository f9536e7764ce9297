import UnixTasks.Daemon.Pairing
import UnixTasks.Lib.FileTree

/-!
# The daemon, the file system and inotify

The system answers the calls of the daemon from a tree of directories and files, and puts an event in the queue of the
inotify instance for every change in a watched directory, the daemon's own included.  Between two changes that others
make in the source tree the daemon works until it waits for events and there are none.

Paths are resolved without links, all from one directory.  The instance numbers its watches 1, 2, 3 and so on.
-/

namespace UnixTasks.Daemon

open CChar ActionSystem

/-! ### Paths -/

/-- A component of a path that is the name of something. -/
structure ValidName (s : Str) : Prop where
  ne_nil : s ≠ []
  no_slash : chr '/' ∉ s
  not_dot : s ≠ [chr '.']
  not_dots : s ≠ [chr '.', chr '.']

instance (s : Str) : Decidable (ValidName s) :=
  decidable_of_iff (s ≠ [] ∧ s.contains (chr '/') = false ∧ s ≠ [chr '.'] ∧ s ≠ [chr '.', chr '.']) <| by
    rw [← Bool.not_eq_true, List.contains_iff_mem]
    exact ⟨fun h => ⟨h.1, h.2.1, h.2.2.1, h.2.2.2⟩, fun h => ⟨h.ne_nil, h.no_slash, h.not_dot, h.not_dots⟩⟩

structure Name where
  text : Str
  valid : ValidName text
  deriving DecidableEq

theorem Name.not_dots (n : Name) : ¬ (n.text = [chr '.'] ∨ n.text = [chr '.', chr '.']) := by
  rintro (h | h)
  · exact n.valid.not_dot h
  · exact n.valid.not_dots h

theorem Name.text_inj {n m : Name} (h : n.text = m.text) : n = m := by
  cases n
  cases m
  simp only [Name.mk.injEq]
  exact h

/-- The component `c` of a path, seen from `p`. -/
def walk (p : List Name) (c : Str) : List Name :=
  if h : ValidName c then p ++ [⟨c, h⟩] else if c = [chr '.', chr '.'] then p.dropLast else p

def resolve (path : Str) : List Name := (path.splitOn (chr '/')).foldl walk []

theorem resolve_join (path : Str) (n : Name) : resolve (join path n.text) = resolve path ++ [n] := by
  have hsplit : n.text.splitOn (chr '/') = [n.text] := List.splitOn_eq_singleton n.valid.no_slash
  unfold resolve join
  rw [List.splitOn_append_cons_self, List.foldl_append, hsplit, List.foldl_cons, List.foldl_nil, walk, dif_pos n.valid]

/-! ### Files -/

abbrev Tree := FileTree Name CChar

/-- `write` of one byte at the offset `i`. -/
def writeAt (out : List CChar) (i : Nat) (b : CChar) : List CChar :=
  if i < out.length then out.set i b else out ++ [b]

/-- The loop of `copy`: one byte is read and one is written, from the offset `i` on. -/
def copyLoop : List CChar → Nat → List CChar → List CChar
  | [], _, out => out
  | b :: rest, i, out => copyLoop rest (i + 1) (writeAt out i b)

/-- `open(path, O_WRONLY | O_CREAT, 0666)`: what is in the file, and the tree with it. -/
def openWrite (t : Tree) (p : List Name) : Option (List CChar × Tree) :=
  match t.node p with
  | some (.file old) => some (old, t)
  | some .dir => none
  | none => if t.CanPut p then some ([], t.set p (.file [])) else none

/-- `copy`, with what `path11` and `path22` stand for. -/
def copy (t : Tree) (p q : List Name) : Tree :=
  match openWrite t q with
  | none => t
  | some (old, t') =>
    match t.node p with
    | some (.file bytes) => t'.set q (.file (copyLoop bytes 0 old))
    | _ => t'

/-- `mkdir(path, 0777)`. -/
def mkdir (t : Tree) (p : List Name) : Tree :=
  if t.node p = none then t.set p .dir else t

/-! ### inotify -/

structure System where
  daemon : State
  tree : Tree
  /-- The directories that the instance watches, in the order of their descriptors. -/
  watches : List (List Name)
  /-- The events that have not been read. -/
  queue : List Event

inductive Mask where
  | create | modify | movedTo
  deriving DecidableEq, Repr

/-- The event of `mask` for the entry `n` of the directory `d`. -/
def event (watches : List (List Name)) (mask : Mask) (d : List Name) (n : Name) : Event :=
  ⟨watches.idxOf d + 1, mask = .create, mask = .modify, mask = .movedTo, n.text⟩

/-- An event that is identical to the last one in the queue is merged with it. -/
def enqueue (queue : List Event) (e : Event) : List Event :=
  if queue.getLast? = some e then queue else queue ++ [e]

/-- What is at `p` has been changed: there is an event if its directory is watched. -/
def notify (watches : List (List Name)) (mask : Mask) (p : List Name) (queue : List Event) : List Event :=
  match p.getLast? with
  | some n => if p.dropLast ∈ watches then enqueue queue (event watches mask p.dropLast n) else queue
  | none => queue

/-- The events of `copy`. -/
def notifyCopy (t : Tree) (watches : List (List Name)) (p q : List Name) (queue : List Event) : List Event :=
  if (openWrite t q).isNone then queue
  else
    let queue := if t.node q = none then notify watches .create q queue else queue
    match t.node p with
    | some (.file (_ :: _)) => notify watches .modify q queue
    | _ => queue

/-- The events of `mkdir`. -/
def notifyMkdir (t : Tree) (watches : List (List Name)) (p : List Name) (queue : List Event) : List Event :=
  if t.node p = none ∧ t.CanPut p then notify watches .create p queue else queue

/-- `inotify_add_watch`: a directory that is watched keeps its descriptor. -/
def watch (watches : List (List Name)) (d : List Name) : List (List Name) × Nat :=
  if d ∈ watches then (watches, watches.idxOf d + 1) else (watches ++ [d], watches.length + 1)

/-- The entries that `readdir` returns, in some order. -/
def entries (t : Tree) (d : List Name) : List Entry :=
  ⟨[chr '.'], true⟩ :: ⟨[chr '.', chr '.'], true⟩ ::
    (t.names d).map fun n => ⟨n.text, t.node (d ++ [n]) = some .dir⟩

/-! ### Runs -/

/-- A change that others make: a new file, a new directory, a file that is written to or truncated, a file that is moved
from `p` to `q`. -/
inductive Change where
  | create (p : List Name)
  | mkdir (p : List Name)
  | write (p : List Name) (bytes : List CChar)
  | move (p q : List Name)

/-- The source directory and the backup directory. -/
def System.source (s : System) : List Name := resolve s.daemon.pathArgv1

def System.backup (s : System) : List Name := resolve s.daemon.pathArgv2

/-- The path is in the source directory. -/
def System.InSource (s : System) (p : List Name) : Prop := p ≠ [] ∧ s.source <+: p.dropLast

/-- The path is not in the backup directory. -/
def System.NotInBackup (s : System) (p : List Name) : Prop := ¬ s.backup <+: p

instance (s : System) (p : List Name) : Decidable (s.InSource p) := inferInstanceAs (Decidable (_ ∧ _))

instance (s : System) (p : List Name) : Decidable (s.NotInBackup p) := inferInstanceAs (Decidable (¬ _))

/-- The changes are made in the source directory and not in the backup directory; a file can be moved from anywhere
else. -/
def System.change (s : System) : Change → Option System
  | .create p =>
    if s.InSource p ∧ s.NotInBackup p ∧ s.tree.node p = none ∧ s.tree.CanPut p then
      some { s with tree := s.tree.set p (.file []), queue := notify s.watches .create p s.queue }
    else none
  | .mkdir p =>
    if s.InSource p ∧ s.NotInBackup p ∧ s.tree.node p = none ∧ s.tree.CanPut p then
      some { s with tree := s.tree.set p .dir, queue := notify s.watches .create p s.queue }
    else none
  | .write p bytes =>
    if s.InSource p ∧ s.NotInBackup p ∧ s.tree.node p ≠ none ∧ s.tree.CanPut p then
      some { s with tree := s.tree.set p (.file bytes), queue := notify s.watches .modify p s.queue }
    else none
  | .move p q =>
    match s.tree.node p with
    | some (.file bytes) =>
      if s.NotInBackup p ∧ s.InSource q ∧ s.NotInBackup q ∧ p ≠ q ∧ s.tree.CanPut q then
        some { s with tree := (s.tree.set q (.file bytes)).erase p, queue := notify s.watches .movedTo q s.queue }
      else none
    | _ => none

/-- The daemon's next step, with the order in which `readdir` returns the entries and with how many more events than one
`read` returns; or a change. -/
inductive SysAction where
  | daemon (order : List Entry) (more : Nat)
  | change (c : Change)

def System.step (s : System) : SysAction → Option System
  | .daemon order more =>
    match s.daemon.next with
    | .opendir path k => some { s with daemon := k (s.tree.node (resolve path) = some .dir) }
    | .mkdir path k => some { s with
        daemon := k
        tree := mkdir s.tree (resolve path)
        queue := notifyMkdir s.tree s.watches (resolve path) s.queue }
    | .addWatch path k =>
      if s.tree.node (resolve path) = none then some { s with daemon := k none }
      else some { s with
        daemon := k (some (watch s.watches (resolve path)).2)
        watches := (watch s.watches (resolve path)).1 }
    | .readdir path k => if order.Perm (entries s.tree (resolve path)) then some { s with daemon := k order } else none
    | .copy path11 path22 k => some { s with
        daemon := k
        tree := copy s.tree (resolve path11) (resolve path22)
        queue := notifyCopy s.tree s.watches (resolve path11) (resolve path22) s.queue }
    | .read k =>
      if s.queue = [] then none
      else some { s with daemon := k (some (s.queue.take (more + 1))), queue := s.queue.drop (more + 1) }
    | .goto d => some { s with daemon := d }
    | .exit => none
  | .change c => if s.daemon.waits ∧ s.queue = [] then s.change c else none

/-! ### The steps of `monitor_directory` -/

/-- The daemon goes on with the functions `stack`. -/
def System.goto (s : System) (stack : List Frame) : System := { s with daemon := { s.daemon with stack := stack } }

@[simp] theorem goto_stack (s : System) (stack : List Frame) : (s.goto stack).daemon.stack = stack := rfl

@[simp] theorem goto_pathArgv2 (s : System) (stack : List Frame) :
    (s.goto stack).daemon.pathArgv2 = s.daemon.pathArgv2 := rfl

section Step

variable {s : System} {path1 path2 : Str} {rest : List Frame}

theorem next_of_scan {s : State} {pc : ScanPc} (hstack : s.stack = .scan path1 path2 pc :: rest) :
    s.next = s.monitorDirectory path1 path2 pc rest ∧ s.waits = false := by
  constructor
  · rw [State.next, hstack]
  · rw [State.waits, hstack]

variable (order : List Entry) (more : Nat)

theorem step_guard (hstack : s.daemon.stack = .scan path1 path2 .start :: rest) (hguard : path1 = s.daemon.pathArgv2) :
    s.step (.daemon order more) = some (s.goto rest) := by
  simp only [System.step, (next_of_scan hstack).1, State.monitorDirectory, if_pos hguard, System.goto]

theorem step_open (hstack : s.daemon.stack = .scan path1 path2 .start :: rest) (hguard : path1 ≠ s.daemon.pathArgv2)
    (hdir : s.tree.node (resolve path1) = some .dir) :
    s.step (.daemon order more) = some (s.goto (.scan path1 path2 .mkdir :: rest)) := by
  simp only [System.step, (next_of_scan hstack).1, State.monitorDirectory, if_neg hguard, hdir, decide_true, if_true,
    System.goto]

theorem step_not_open (hstack : s.daemon.stack = .scan path1 path2 .start :: rest)
    (hguard : path1 ≠ s.daemon.pathArgv2) (hdir : s.tree.node (resolve path1) ≠ some .dir) :
    s.step (.daemon order more) = some (s.goto rest) := by
  simp only [System.step, (next_of_scan hstack).1, State.monitorDirectory, if_neg hguard, hdir, decide_false,
    Bool.false_eq_true, if_false, System.goto]

theorem step_mkdir (hstack : s.daemon.stack = .scan path1 path2 .mkdir :: rest) :
    s.step (.daemon order more) = some { s.goto (.scan path1 path2 .watch :: rest) with
      tree := mkdir s.tree (resolve path2)
      queue := notifyMkdir s.tree s.watches (resolve path2) s.queue } := by
  simp only [System.step, (next_of_scan hstack).1, State.monitorDirectory, System.goto]

theorem step_watch (hstack : s.daemon.stack = .scan path1 path2 .watch :: rest)
    (hdir : s.tree.node (resolve path1) = some .dir) :
    s.step (.daemon order more) = some { s with
      daemon := { s.daemon.addInotify path1 path2 (some (watch s.watches (resolve path1)).2) with
        stack := .scan path1 path2 .readdir :: rest }
      watches := (watch s.watches (resolve path1)).1 } := by
  simp only [System.step, (next_of_scan hstack).1, State.monitorDirectory, hdir, reduceCtorEq, if_false]

theorem step_readdir (hstack : s.daemon.stack = .scan path1 path2 .readdir :: rest) :
    s.step (.daemon order more) = if order.Perm (entries s.tree (resolve path1)) then
      some (s.goto (.scan path1 path2 (.entries order) :: rest)) else none := by
  simp only [System.step, (next_of_scan hstack).1, State.monitorDirectory, System.goto]

theorem step_end (hstack : s.daemon.stack = .scan path1 path2 (.entries []) :: rest) :
    s.step (.daemon order more) = some (s.goto rest) := by
  simp only [System.step, (next_of_scan hstack).1, State.monitorDirectory, System.goto]

theorem step_skip {e : Entry} {es : List Entry}
    (hstack : s.daemon.stack = .scan path1 path2 (.entries (e :: es)) :: rest)
    (hdots : e.name = [chr '.'] ∨ e.name = [chr '.', chr '.']) :
    s.step (.daemon order more) = some (s.goto (.scan path1 path2 (.entries es) :: rest)) := by
  simp only [System.step, (next_of_scan hstack).1, State.monitorDirectory, if_pos hdots, System.goto]

theorem step_enter {n : Name} {es : List Entry}
    (hstack : s.daemon.stack = .scan path1 path2 (.entries (⟨n.text, true⟩ :: es)) :: rest) :
    s.step (.daemon order more) = some (s.goto
      (.scan (join path1 n.text) (join path2 n.text) .start :: .scan path1 path2 (.entries es) :: rest)) := by
  simp only [System.step, (next_of_scan hstack).1, State.monitorDirectory, if_neg n.not_dots, if_true, System.goto]

theorem step_copy {n : Name} {es : List Entry}
    (hstack : s.daemon.stack = .scan path1 path2 (.entries (⟨n.text, false⟩ :: es)) :: rest) :
    s.step (.daemon order more) = some { s.goto (.scan path1 path2 (.entries es) :: rest) with
      tree := copy s.tree (resolve (join path1 n.text)) (resolve (join path2 n.text))
      queue := notifyCopy s.tree s.watches (resolve (join path1 n.text)) (resolve (join path2 n.text)) s.queue } := by
  simp only [System.step, (next_of_scan hstack).1, State.monitorDirectory, if_neg n.not_dots, Bool.false_eq_true,
    if_false, System.goto]

end Step

end UnixTasks.Daemon
