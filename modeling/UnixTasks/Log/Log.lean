import UnixTasks.Lib.CString
import UnixTasks.Lib.Run

/-!
# The logger: log.c

A record is put together in one static buffer behind one static cursor, and written.  What the system answers and what
is logged are given with every call.  There is no result when a text is written behind the end of the buffer.

* (`logError`) the two versions: udp/log.c looks at what the functions that it calls return, log/log.c does not;
* (`logError_clean`) a call that finds the buffer empty and the cursor at its beginning;
* (`traceless_iff`) no call leaves a trace if and only if no call fails on the way.
-/

namespace UnixTasks.Log

open ActionSystem CChar CString

/-- `BUFSZ`. -/
def bufSz : Nat := 256

def INFO : Int := 0

def ERR : Int := 1

def WARN : Int := 2

structure State where
  buf : List CChar
  fd : Int
  pos : Nat
  deriving DecidableEq, Repr

/-- A call of `log_error`: its arguments, and the answers of the system. -/
structure Call where
  level : Int
  /-- What `ctime` returns. -/
  ctime : List CChar
  /-- The digits of the pid. -/
  pid : List CChar
  /-- The format with its arguments put in. -/
  message : List CChar
  /-- `strerror(errno)`. -/
  strerror : List CChar
  /-- What `open` returns. -/
  opened : Int
  /-- The record can be written. -/
  recordWritten : Bool
  /-- The newline can be written. -/
  newlineWritten : Bool
  deriving DecidableEq, Repr

def text (s : String) : List CChar := s.toList.map chr

/-- `sprintf(buf + pos, "%s", s)`. -/
def sprintfAt (buf : List CChar) (pos : Nat) (s : List CChar) : Option (List CChar) :=
  if pos + s.length < bufSz then some (buf.take pos ++ s ++ 0 :: buf.drop (pos + s.length + 1)) else none

/-- `vsnprintf(buf + pos, BUFSZ - pos, fmt, params)`. -/
def vsnprintfAt (buf : List CChar) (pos : Nat) (s : List CChar) : List CChar :=
  let s := s.take (bufSz - pos - 1)
  buf.take pos ++ s ++ 0 :: buf.drop (pos + s.length + 1)

def bracketed (s : List CChar) : List CChar := text "[" ++ s ++ text "]"

/-- `sprintf(buf + pos, "[%s]", s)`, and the cursor behind it. -/
def State.bracket (s : State) (t : List CChar) : Option State :=
  (sprintfAt s.buf s.pos (bracketed t)).map fun buf => { s with buf := buf, pos := s.pos + (bracketed t).length }

/-- The name of a level that there is. -/
def nbuf (level : Int) : List CChar :=
  if level = INFO then text "INFO" else if level = ERR then text "ERR " else text "WARN"

/-- `get_log_level`: the buffer, and what is returned. -/
def getLogLevel (s : State) (level : Int) : Option (State × Int) :=
  if level < INFO ∨ WARN < level then some (s, -1) else (s.bracket (nbuf level)).map (·, 0)

/-- `get_time`: the text without its newline. -/
def getTime (s : State) (ctime : List CChar) : Option (State × Int) := (s.bracket (cstr ctime).dropLast).map (·, 0)

/-- `paste_pid`. -/
def pastePid (s : State) (pid : List CChar) : Option (State × Int) := (s.bracket (cstr pid)).map (·, 0)

/-- `log_init(NULL)`. -/
def logInit (s : State) (opened : Int) : State × Int := ({ s with fd := opened }, if opened < 0 then -1 else 0)

/-- `vsnprintf`, and for an error the second `sprintf`, which reads the buffer that it writes. -/
def format (s : State) (c : Call) : Option State :=
  let s : State := { s with buf := vsnprintfAt s.buf s.pos (cstr c.message) }
  if c.level = ERR then
    (sprintfAt s.buf 0 (cstr s.buf ++ text ": " ++ cstr c.strerror ++ [10])).map fun buf => { s with buf := buf }
  else some s

/-- The two calls of `write`, and the reset: what is returned, and what has been written. -/
def writeRecord (s : State) (c : Call) : State × Int × List CChar :=
  if s.fd < 0 ∨ c.recordWritten = false then (s, -1, [])
  else if c.level = INFO ∨ c.level = WARN then
    if c.newlineWritten = false then (s, -1, s.buf) else ({ s with pos := 0, buf := zeros bufSz }, 0, s.buf ++ [10])
  else ({ s with pos := 0, buf := zeros bufSz }, 0, s.buf)

/-- A function has been called: where its result is looked at, -1 is passed on. -/
def after (checks : Bool) (r : State × Int) (k : State → Option (State × Int × List CChar)) :
    Option (State × Int × List CChar) :=
  if checks = true ∧ r.2 < 0 then some (r.1, -1, []) else k r.1

/-- `log_error`. -/
def logError (checks : Bool) (s : State) (c : Call) : Option (State × Int × List CChar) :=
  (getLogLevel s c.level).bind fun r => after checks r fun s =>
  (getTime s c.ctime).bind fun r => after checks r fun s =>
  (pastePid s c.pid).bind fun r => after checks r fun s =>
  (format s c).bind fun s =>
  after checks (if s.fd < 0 then logInit s c.opened else (s, 0)) fun s =>
  some (writeRecord s c)

/-! ### Texts in the buffer -/

private theorem drop_padded {t : List CChar} {n k : Nat} (h : t.length ≤ n) (hk : bufSz - n = k) :
    (padded bufSz t).drop n = zeros k := by
  rw [padded, List.drop_append, List.drop_of_length_le h, List.nil_append, zeros, List.drop_replicate, zeros]
  congr 1
  omega

/-- A text that is written from inside the one in the buffer, and reaches over its end. -/
private theorem sprintfAt_take {t u : List CChar} {pos : Nat} (hpos : pos ≤ t.length)
    (hover : t.length ≤ pos + u.length) (h : pos + u.length < bufSz) :
    sprintfAt (padded bufSz t) pos u = some (padded bufSz (t.take pos ++ u)) := by
  obtain ⟨k, hk⟩ : ∃ k, bufSz - (pos + u.length) = k + 1 := ⟨bufSz - (pos + u.length) - 1, by omega⟩
  have hdrop : (padded bufSz t).drop (pos + u.length + 1) = zeros k := drop_padded (by omega) (by omega)
  have htake : (padded bufSz t).take pos = t.take pos := List.take_append_of_le_length hpos
  rw [sprintfAt, if_pos h, hdrop, htake, padded, List.length_append, List.length_take_of_le hpos, hk, zeros, zeros,
    List.replicate_succ]

private theorem sprintfAt_padded {t u : List CChar} (h : t.length + u.length < bufSz) :
    sprintfAt (padded bufSz t) t.length u = some (padded bufSz (t ++ u)) := by
  rw [sprintfAt_take (Nat.le_refl _) (Nat.le_add_right ..) h, List.take_length]

/-- A text that is copied onto itself, with more behind it. -/
private theorem sprintfAt_zero {t u : List CChar} (h : t.length + u.length < bufSz) :
    sprintfAt (padded bufSz t) 0 (t ++ u) = some (padded bufSz (t ++ u)) := by
  have hlen : 0 + (t ++ u).length = t.length + u.length := by rw [Nat.zero_add, List.length_append]
  rw [sprintfAt_take (Nat.zero_le _) (by omega) (by omega), List.take_zero, List.nil_append]

theorem sprintfAt_eq_none {buf u : List CChar} {pos : Nat} (h : bufSz ≤ pos + u.length) :
    sprintfAt buf pos u = none := by
  rw [sprintfAt, if_neg (by omega)]

private theorem vsnprintfAt_padded {t u : List CChar} (h : t.length < bufSz) :
    vsnprintfAt (padded bufSz t) t.length u = padded bufSz ((t ++ u).take (bufSz - 1)) := by
  have htake : (t ++ u).take (bufSz - 1) = t ++ u.take (bufSz - t.length - 1) := by
    rw [List.take_append, List.take_of_length_le (by omega)]
    congr 2
    omega
  have hlen : (u.take (bufSz - t.length - 1)).length ≤ bufSz - t.length - 1 := List.length_take_le ..
  have hsprintf := sprintfAt_padded (t := t) (u := u.take (bufSz - t.length - 1)) (by omega)
  rw [sprintfAt, if_pos (by omega)] at hsprintf
  rw [htake]
  exact Option.some.inj hsprintf

/-! ### The record of a call -/

namespace Call

variable (c : Call)

/-- There is no such level. -/
def Bad : Prop := c.level < INFO ∨ WARN < c.level

instance : Decidable c.Bad := inferInstanceAs (Decidable (_ ∨ _))

/-- The level, the time and the pid. -/
def head : List CChar :=
  (if c.Bad then [] else bracketed (nbuf c.level)) ++ bracketed (cstr c.ctime).dropLast ++ bracketed (cstr c.pid)

/-- The text that is written behind `head`. -/
def recordFrom (head : List CChar) : List CChar :=
  let body := (head ++ cstr c.message).take (bufSz - 1)
  if c.level = ERR then body ++ text ": " ++ cstr c.strerror ++ [10] else body

def record : List CChar := c.recordFrom c.head

/-- The record fits the buffer. -/
def Fits : Prop := c.head.length < bufSz ∧ c.record.length < bufSz

instance : Decidable c.Fits := inferInstanceAs (Decidable (_ ∧ _))

/-- What the call writes: the buffer with its own record, and for two of the levels a newline. -/
def bytes : List CChar := padded bufSz c.record ++ if c.level = INFO ∨ c.level = WARN then [10] else []

/-- The calls of the system that are made succeed. -/
def Succeeds (fd : Int) : Prop :=
  (0 ≤ fd ∨ 0 ≤ c.opened) ∧ c.recordWritten = true ∧ (c.level = INFO ∨ c.level = WARN → c.newlineWritten = true)

instance (fd : Int) : Decidable (c.Succeeds fd) := inferInstanceAs (Decidable (_ ∧ _))

end Call

/-- The cursor is at the beginning of a buffer in which nothing is. -/
structure State.Clean (s : State) : Prop where
  pos : s.pos = 0
  buf : s.buf = zeros bufSz

/-- The buffer holds the text, and the cursor is behind it. -/
structure State.Holds (s : State) (t : List CChar) : Prop where
  pos : s.pos = t.length
  buf : s.buf = padded bufSz t

section Call

variable {s : State} {t : List CChar} {c : Call}

theorem State.Clean.holds (h : s.Clean) : s.Holds [] := ⟨h.pos, h.buf⟩

/-- A text that fits is put behind what is in the buffer. -/
theorem State.Holds.bracket (h : s.Holds t) (u : List CChar) :
    (bufSz ≤ (t ++ bracketed u).length ∧ s.bracket u = none) ∨
      ((t ++ bracketed u).length < bufSz ∧
        ∃ s', s.bracket u = some s' ∧ s'.Holds (t ++ bracketed u) ∧ s'.fd = s.fd) := by
  rw [List.length_append]
  unfold State.bracket
  rcases Nat.lt_or_ge (t.length + (bracketed u).length) bufSz with hlen | hlen
  · right
    refine ⟨hlen, { s with buf := padded bufSz (t ++ bracketed u), pos := t.length + (bracketed u).length }, ?_, ?_,
      rfl⟩
    · rw [h.buf, h.pos, sprintfAt_padded hlen, Option.map_some]
    · exact ⟨(List.length_append ..).symm, rfl⟩
  · left
    rw [sprintfAt_eq_none (by rw [h.pos]; exact hlen), Option.map_none]
    exact ⟨hlen, rfl⟩

theorem nul_notMem_bracketed {u : List CChar} (hu : 0 ∉ u) : 0 ∉ bracketed u := by
  have hopen : (0 : CChar) ∉ text "[" := by decide
  have hclose : (0 : CChar) ∉ text "]" := by decide
  simp only [bracketed, List.mem_append, not_or]
  exact ⟨⟨hopen, hu⟩, hclose⟩

theorem nul_notMem_nbuf (level : Int) : 0 ∉ nbuf level := by
  unfold nbuf
  split
  · decide
  · split <;> decide

theorem nul_notMem_ctime (t : List CChar) : 0 ∉ (cstr t).dropLast :=
  fun h => nul_notMem_cstr _ (List.mem_of_mem_dropLast h)

private theorem nul_notMem_head (c : Call) : 0 ∉ c.head := by
  simp only [Call.head, List.mem_append, not_or]
  refine ⟨⟨?_, nul_notMem_bracketed (nul_notMem_ctime _)⟩, nul_notMem_bracketed (nul_notMem_cstr _)⟩
  split
  · simp
  · exact nul_notMem_bracketed (nul_notMem_nbuf _)

/-- The rest of the record is put behind a text in the buffer. -/
theorem State.Holds.format (h : s.Holds t) (ht : 0 ∉ t) (hlen : t.length < bufSz) :
    (bufSz ≤ (c.recordFrom t).length ∧ format s c = none) ∨
      ((c.recordFrom t).length < bufSz ∧
        Log.format s c = some { s with buf := padded bufSz (c.recordFrom t) }) := by
  have hbuf : vsnprintfAt s.buf s.pos (cstr c.message) = padded bufSz ((t ++ cstr c.message).take (bufSz - 1)) := by
    rw [h.buf, h.pos, vsnprintfAt_padded hlen]
  have hbody : ((t ++ cstr c.message).take (bufSz - 1)).length ≤ bufSz - 1 := List.length_take_le ..
  have hnul : 0 ∉ (t ++ cstr c.message).take (bufSz - 1) := by
    intro hmem
    rcases List.mem_append.1 (List.mem_of_mem_take hmem) with hmem | hmem
    · exact ht hmem
    · exact nul_notMem_cstr _ hmem
  simp only [Log.format, hbuf, Call.recordFrom]
  generalize (t ++ cstr c.message).take (bufSz - 1) = body at hbody hnul
  by_cases herr : c.level = ERR
  · simp only [if_pos herr, cstr_padded hnul]
    rw [List.append_assoc, List.append_assoc]
    generalize text ": " ++ (cstr c.strerror ++ [10]) = rest
    rcases Nat.lt_or_ge (body ++ rest).length bufSz with hfits | hfits
    · right
      rw [sprintfAt_zero (by rwa [List.length_append] at hfits), Option.map_some]
      exact ⟨hfits, rfl⟩
    · left
      rw [sprintfAt_eq_none (by rwa [Nat.zero_add]), Option.map_none]
      exact ⟨hfits, rfl⟩
  · right
    simp only [if_neg herr]
    have hpos : 0 < bufSz := by decide
    exact ⟨by omega, trivial⟩

/-! ### One call -/

@[simp] theorem after_zero (checks : Bool) (s : State) (k : State → Option (State × Int × List CChar)) :
    after checks (s, 0) k = k s := by
  simp [after]

/-- A level that there is, or one whose name is left out because nobody looks at the result. -/
private theorem getLogLevel_clean {checks : Bool} (h : s.Clean) (hlevel : checks = true → ¬ c.Bad) {t : List CChar}
    (ht : t = if c.Bad then [] else bracketed (nbuf c.level)) :
    (bufSz ≤ t.length ∧ getLogLevel s c.level = none) ∨
      ∃ s' r, getLogLevel s c.level = some (s', r) ∧ s'.Holds t ∧ s'.fd = s.fd ∧
        ∀ k, after checks (s', r) k = k s' := by
  by_cases hbad : c.Bad
  · right
    have hchecks : checks = false := by
      by_contra htrue
      exact hlevel (Bool.eq_true_of_not_eq_false htrue) hbad
    rw [if_pos hbad] at ht
    refine ⟨s, -1, if_pos hbad, ht ▸ h.holds, rfl, fun k => ?_⟩
    simp [after, hchecks]
  · rw [if_neg hbad] at ht
    have hget : getLogLevel s c.level = (s.bracket (nbuf c.level)).map (·, 0) := if_neg hbad
    rcases h.holds.bracket (nbuf c.level) with ⟨hlen, hnone⟩ | ⟨-, s', hs', hholds, hfd⟩
    · left
      exact ⟨by rw [ht]; exact hlen, by rw [hget, hnone, Option.map_none]⟩
    · right
      exact ⟨s', 0, by rw [hget, hs', Option.map_some], ht ▸ hholds, hfd, fun k => after_zero ..⟩

/-- The call in a clean state, unless it is for a level that there is not: the record is put together, if it fits, and
the cursor is behind its head when the system is asked to write it. -/
theorem logError_clean {checks : Bool} (h : s.Clean) (hlevel : checks = true → ¬ c.Bad) :
    (¬ c.Fits ∧ logError checks s c = none) ∨
      (c.Fits ∧ logError checks s c =
        after checks (if s.fd < 0 then logInit ⟨padded bufSz c.record, s.fd, c.head.length⟩ c.opened
          else (⟨padded bufSz c.record, s.fd, c.head.length⟩, 0)) fun s => some (writeRecord s c)) := by
  unfold logError
  have hhead : c.head = (if c.Bad then [] else bracketed (nbuf c.level)) ++ bracketed (cstr c.ctime).dropLast ++
    bracketed (cstr c.pid) := rfl
  generalize htext : (if c.Bad then [] else bracketed (nbuf c.level)) = t at hhead
  have hfits : c.Fits → (t ++ bracketed (cstr c.ctime).dropLast).length + (bracketed (cstr c.pid)).length < bufSz := by
    intro hfits
    have hlen := hfits.1
    rwa [hhead, List.length_append] at hlen
  rcases getLogLevel_clean h hlevel htext.symm with ⟨hlen, hnone⟩ | ⟨s₁, r, hs₁, hholds₁, hfd₁, hafter⟩
  · left
    refine ⟨fun hf => ?_, by rw [hnone, Option.bind_none]⟩
    have hlt := hfits hf
    rw [List.length_append] at hlt
    omega
  rw [hs₁, Option.bind_some, hafter, getTime]
  rcases hholds₁.bracket (cstr c.ctime).dropLast with ⟨hlen, hnone⟩ | ⟨-, s₂, hs₂, hholds₂, hfd₂⟩
  · left
    refine ⟨fun hf => ?_, by rw [hnone, Option.map_none, Option.bind_none]⟩
    have hlt := hfits hf
    omega
  rw [hs₂, Option.map_some, Option.bind_some, after_zero, pastePid]
  rcases hholds₂.bracket (cstr c.pid) with ⟨hlen, hnone⟩ | ⟨hlen, s₃, hs₃, hholds₃, hfd₃⟩
  · left
    refine ⟨fun hf => ?_, by rw [hnone, Option.map_none, Option.bind_none]⟩
    have hlt := hfits hf
    rw [List.length_append] at hlen
    omega
  rw [hs₃, Option.map_some, Option.bind_some, after_zero]
  rw [← hhead] at hholds₃ hlen
  rcases hholds₃.format (c := c) (nul_notMem_head c) hlen with ⟨hlong, hnone⟩ | ⟨hshort, hformat⟩
  · left
    refine ⟨fun hf => ?_, by rw [hnone, Option.bind_none]⟩
    have hlt : (c.recordFrom c.head).length < bufSz := hf.2
    omega
  · right
    refine ⟨⟨hlen, hshort⟩, ?_⟩
    have hfd : s₃.fd = s.fd := by rw [hfd₃, hfd₂, hfd₁]
    rw [hformat, Option.bind_some, hholds₃.pos, hfd]
    rfl

/-! ### Traces -/

/-- The call has a result; if it returns 0, what it has written is its own record; and the next call finds the buffer
empty and the cursor at its beginning. -/
def Traceless (checks : Bool) (s : State) (c : Call) : Prop :=
  ∃ s' ret written, logError checks s c = some (s', ret, written) ∧ (ret = 0 → written = c.bytes) ∧ s'.Clean

/-- The call fails at once because there is no such level, or everything it asks of the system succeeds. -/
def Good (checks : Bool) (s : State) (c : Call) : Prop :=
  (checks = true ∧ c.Bad) ∨ (c.Fits ∧ c.Succeeds s.fd)

instance (checks : Bool) (s : State) (c : Call) : Decidable (Good checks s c) := inferInstanceAs (Decidable (_ ∨ _))

private theorem head_ne_nil (c : Call) : c.head ≠ [] := List.append_ne_nil_of_right_ne_nil _ (by simp [bracketed, text])

theorem writeRecord_of_succeeds {opened : Int} (hfd : 0 ≤ s.fd) (h : c.Succeeds opened) :
    writeRecord s c = ({ s with pos := 0, buf := zeros bufSz }, 0,
      s.buf ++ if c.level = INFO ∨ c.level = WARN then [10] else []) := by
  obtain ⟨-, hrecord, hnewline⟩ := h
  have hwrite : ¬ (s.fd < 0 ∨ c.recordWritten = false) := by
    rintro (hneg | hfail)
    · omega
    · rw [hrecord] at hfail
      cases hfail
  rw [writeRecord, if_neg hwrite]
  split
  · rename_i hlevel
    rw [if_neg (by simp [hnewline hlevel])]
  · rw [List.append_nil]

/-- Where a call fails, the buffer and the cursor stay as they are. -/
theorem writeRecord_of_fails (h : ¬ (0 ≤ s.fd ∧ c.recordWritten = true ∧
    (c.level = INFO ∨ c.level = WARN → c.newlineWritten = true))) :
    (writeRecord s c).1 = s := by
  unfold writeRecord
  split
  · rfl
  · rename_i hwrite
    rw [not_or, not_lt, Bool.not_eq_false] at hwrite
    split
    · rename_i hlevel
      split
      · rfl
      · rename_i hnewline
        exact absurd ⟨hwrite.1, hwrite.2, fun _ => by simpa using hnewline⟩ h
    · rename_i hlevel
      exact absurd ⟨hwrite.1, hwrite.2, fun hl => absurd hl hlevel⟩ h

/-- The cursor stays behind the head of a record that has not been written. -/
private theorem not_clean_of_head (buf : List CChar) (fd : Int) : ¬ State.Clean ⟨buf, fd, c.head.length⟩ := by
  intro h
  have hpos : c.head.length = 0 := h.pos
  exact head_ne_nil c (List.length_eq_zero_iff.1 hpos)

/-- A call for a level that there is not fails before it touches the buffer. -/
private theorem traceless_of_bad {checks : Bool} (h : s.Clean) (hlevel : checks = true ∧ c.Bad) :
    Traceless checks s c := by
  have hcall : logError checks s c = some (s, -1, []) := by
    have hget : getLogLevel s c.level = some (s, -1) := if_pos hlevel.2
    rw [logError, hget, Option.bind_some, after, if_pos ⟨hlevel.1, (by decide : (-1 : Int) < 0)⟩]
  exact ⟨s, -1, [], hcall, fun h0 => absurd h0 (by decide), h⟩

section Fits

variable {checks : Bool} (hcall : logError checks s c =
  after checks (if s.fd < 0 then logInit ⟨padded bufSz c.record, s.fd, c.head.length⟩ c.opened
    else (⟨padded bufSz c.record, s.fd, c.head.length⟩, 0)) fun s => some (writeRecord s c))

include hcall

/-- With a descriptor to write to, the record is written. -/
private theorem logError_of_open (hopen : 0 ≤ s.fd ∨ 0 ≤ c.opened) : ∃ fd : Int, 0 ≤ fd ∧
    logError checks s c = some (writeRecord ⟨padded bufSz c.record, fd, c.head.length⟩ c) := by
  rw [hcall]
  by_cases hneg : s.fd < 0
  · have hpos : 0 ≤ c.opened := hopen.resolve_left (by omega)
    refine ⟨c.opened, hpos, ?_⟩
    rw [if_pos hneg, logInit, if_neg (by omega), after_zero]
  · exact ⟨s.fd, by omega, by rw [if_neg hneg, after_zero]⟩

private theorem traceless_iff_succeeds (hopen : 0 ≤ s.fd ∨ 0 ≤ c.opened) : Traceless checks s c ↔ c.Succeeds s.fd := by
  obtain ⟨fd, hfd, hcall'⟩ := logError_of_open hcall hopen
  constructor
  · rintro ⟨s', ret, written, hsome, -, hclean⟩
    rw [hcall', Option.some.injEq] at hsome
    by_contra hfails
    have hkeep := writeRecord_of_fails (s := ⟨padded bufSz c.record, fd, c.head.length⟩) fun hall =>
      hfails ⟨hopen, hall.2⟩
    rw [hsome] at hkeep
    have hstate : s' = ⟨padded bufSz c.record, fd, c.head.length⟩ := hkeep
    exact not_clean_of_head _ _ (hstate ▸ hclean)
  · intro hsucceeds
    have hwrite := writeRecord_of_succeeds (s := ⟨padded bufSz c.record, fd, c.head.length⟩) hfd hsucceeds
    exact ⟨_, _, _, hcall'.trans (congrArg some hwrite), fun _ => rfl, rfl, rfl⟩

/-- `open` fails: one version returns, the other writes to the descriptor -1. -/
private theorem not_traceless_of_not_open (hfd : s.fd < 0) (hopened : c.opened < 0) : ¬ Traceless checks s c := by
  rintro ⟨s', ret, written, hsome, -, hclean⟩
  rw [hcall, if_pos hfd, logInit, if_pos hopened, after] at hsome
  have hstate : s' = ⟨padded bufSz c.record, c.opened, c.head.length⟩ := by
    split at hsome
    · cases hsome
      rfl
    · rw [Option.some.injEq] at hsome
      have hkeep := writeRecord_of_fails (c := c) (s := ⟨padded bufSz c.record, c.opened, c.head.length⟩) fun hall =>
        absurd hall.1 (by simp only; omega)
      rw [hsome] at hkeep
      exact hkeep
  exact not_clean_of_head _ _ (hstate ▸ hclean)

end Fits

/-- A call in a clean state leaves no trace if and only if it is good. -/
private theorem traceless_iff_good {checks : Bool} (h : s.Clean) : Traceless checks s c ↔ Good checks s c := by
  by_cases hlevel : checks = true ∧ c.Bad
  · exact iff_of_true (traceless_of_bad h hlevel) (.inl hlevel)
  · have hgood : Good checks s c ↔ c.Fits ∧ c.Succeeds s.fd := or_iff_right hlevel
    rw [hgood]
    rcases logError_clean h fun hchecks hbad => hlevel ⟨hchecks, hbad⟩ with ⟨hfits, hcall⟩ | ⟨hfits, hcall⟩
    · refine iff_of_false ?_ fun hf => hfits hf.1
      rintro ⟨s', ret, written, hsome, -⟩
      rw [hcall] at hsome
      cases hsome
    · rw [and_iff_right hfits]
      by_cases hopen : 0 ≤ s.fd ∨ 0 ≤ c.opened
      · exact traceless_iff_succeeds hcall hopen
      · have hnot := hopen
        rw [not_or, not_le, not_le] at hnot
        exact iff_of_false (not_traceless_of_not_open hcall hnot.1 hnot.2) fun hsucceeds => hopen hsucceeds.1

end Call

/-! ### Runs -/

/-- The buffer, the descriptor and the cursor after a call. -/
def State.call (checks : Bool) (s : State) (c : Call) : Option State := (logError checks s c).map Prod.fst

/-- For both versions, from any state with an empty buffer: no call of a sequence leaves a trace if and only if every
call is for a level that there is not, and fails at once, or fits the buffer and everything it asks of the system
succeeds. -/
theorem traceless_iff (checks : Bool) (s : State) (hs : s.Clean) (cs : List Call) :
    AllSteps (State.call checks) (Traceless checks) s cs ↔ AllSteps (State.call checks) (Good checks) s cs := by
  refine allSteps_congr ?_ (fun t c (ht : t.Clean) => traceless_iff_good ht) hs
  intro s c t _ htraceless hcall
  obtain ⟨s', ret, written, hsome, -, hclean⟩ := htraceless
  rw [State.call, hsome, Option.map_some, Option.some.injEq] at hcall
  exact hcall ▸ hclean

/-- A warning, a call for the level 7 that there is not, and an error. -/
theorem traceless_iff_warning : AllSteps (State.call true) (Traceless true) ⟨zeros bufSz, 3, 0⟩
    [⟨WARN, text "noon", text "7", text "full", [], 3, true, true⟩,
      ⟨7, text "noon", text "7", text "what", [], 3, true, true⟩,
      ⟨ERR, text "noon", text "7", text "full", text "No space", 3, true, true⟩] :=
  (traceless_iff true ⟨zeros bufSz, 3, 0⟩ ⟨rfl, rfl⟩ _).2 (by decide +kernel)

/-- The record of the first call cannot be written; what the second one writes begins with it, and is not what the same
call writes without the first. -/
theorem leaves_trace : ∃ (c d : Call) (s t u : State) (written : List CChar),
    logError true ⟨zeros bufSz, 3, 0⟩ c = some (s, -1, []) ∧ logError true s d = some (t, 0, written) ∧
      logError true ⟨zeros bufSz, 3, 0⟩ d = some (u, 0, d.bytes) ∧
      written.take 9 = text "[INFO][no" ∧ d.bytes.take 9 = text "[WARN][no" ∧ written ≠ d.bytes := by
  let c : Call := ⟨INFO, text "noon", text "7", text "first", [], 3, false, true⟩
  let d : Call := ⟨WARN, text "noon", text "7", text "second", [], 3, true, true⟩
  refine ⟨c, d, _, _, _, _, rfl, rfl, rfl, by decide, by decide, ?_⟩
  intro heq
  have htake := congrArg (List.take 9) heq
  revert htake
  decide

end UnixTasks.Log
