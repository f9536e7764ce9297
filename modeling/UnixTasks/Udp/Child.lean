import UnixTasks.Udp.Client

/-!
# The child of a client

What the child of one client does with the buffers that it reads: it decrypts them and looks for "quit" and "shell" at
their front.  `bash_work` is set and cleared by the shell and by a signal handler, so its value at each command is an
argument.  All system calls of the child succeed here.
-/

namespace UnixTasks.Udp

open CChar CString

/-- "shell". -/
def shellCmd : List CChar := ['s', 'h', 'e', 'l', 'l'].map chr

/-- `CMD_QUIT`, `CMD_SHELL`, `CMD_TO_BASH`, and the result -1 of `cmp_comm`. -/
inductive Cmd where
  | quit
  | shell
  | toBash
  | unrecognized
  deriving DecidableEq, Repr

/-- `cmp_comm(child_buf)`. -/
def cmpComm (bashWork : Bool) (childBuf : List CChar) : Cmd :=
  if strncmp quitCmd.length childBuf quitCmd = 0 then .quit
  else if strncmp shellCmd.length childBuf shellCmd = 0 then .shell
  else if bashWork then .toBash
  else .unrecognized

/-- Where the child of the UDP server is: it waits for the key of the client, it serves commands, it has exited. -/
inductive Child where
  | key
  | commands
  | exited
  deriving DecidableEq, Repr

/-- `child_handle` after a `read` that has returned `data`. -/
def Child.read (K : CChar) (bashWork : Bool) (data : List CChar) : Child → Child
  | .key => .commands
  | .commands => if cmpComm bashWork (crypto K data) = .quit then .exited else .commands
  | .exited => .exited

/-- The child after it has read a list of buffers, the first one as its buffer number `i`. -/
def childHandle (K : CChar) (bashWork : Nat → Bool) (i : Nat) : Child → List (List CChar) → Child
  | c, [] => c
  | c, data :: reads => childHandle K bashWork (i + 1) (c.read K (bashWork i) data) reads

/-- A buffer with "quit" at its front. -/
def Quits (buf : List CChar) : Prop := buf.take quitCmd.length = quitCmd

instance (buf : List CChar) : Decidable (Quits buf) := inferInstanceAs (Decidable (_ = _))

/-- A string is at the front of an array if and only if the array's own string starts with it. -/
theorem take_cstr_eq_iff {s w : List CChar} (hw : 0 ∉ w) : (cstr s).take w.length = w ↔ s.take w.length = w := by
  constructor
  · intro h
    have hle : w <+: s := by
      rw [← h]
      exact (List.take_prefix _ _).trans (List.takeWhile_prefix _)
    exact (List.prefix_iff_eq_take.1 hle).symm
  · intro h
    have hsplit : s = w ++ s.drop w.length := by
      conv_lhs => rw [← List.take_append_drop w.length s, h]
    rw [hsplit, take_cstr_append, cstr_of_notMem hw]

theorem strncmp_quitCmd {buf : List CChar} : strncmp quitCmd.length buf quitCmd = 0 ↔ Quits buf := by
  have hcmp : (cstr quitCmd).take quitCmd.length = quitCmd := by decide
  rw [strncmp_eq_zero_iff, hcmp, take_cstr_eq_iff (by decide), Quits]

theorem cmpComm_eq_quit_iff (bashWork : Bool) {buf : List CChar} : cmpComm bashWork buf = .quit ↔ Quits buf := by
  rw [← strncmp_quitCmd]
  unfold cmpComm
  split
  · rename_i h
    exact iff_of_true rfl h
  · rename_i h
    refine iff_of_false ?_ h
    split
    · simp
    · split <;> simp

/-- A child that serves commands exits with the first one that it decrypts to "quit". -/
theorem childHandle_exited_iff (K : CChar) (bashWork : Nat → Bool) (i : Nat) (reads : List (List CChar)) :
    childHandle K bashWork i .commands reads = .exited ↔ ∃ data ∈ reads, Quits (crypto K data) := by
  have hexited : ∀ i reads, childHandle K bashWork i .exited reads = .exited := by
    intro i reads
    induction reads generalizing i with
    | nil => rfl
    | cons data reads ih => exact ih (i + 1)
  induction reads generalizing i with
  | nil => simp [childHandle]
  | cons data reads ih =>
    rw [childHandle, Child.read, List.exists_mem_cons_iff]
    by_cases hq : Quits (crypto K data)
    · rw [if_pos ((cmpComm_eq_quit_iff _).2 hq)]
      exact iff_of_true (hexited _ _) (.inl hq)
    · rw [if_neg (mt (cmpComm_eq_quit_iff _).1 hq)]
      exact (ih (i + 1)).trans (or_iff_right hq).symm

end UnixTasks.Udp
