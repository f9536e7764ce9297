import UnixTasks.Lib.CString
import UnixTasks.Lib.ForLoop

/-!
# Events in a buffer: main.c of the daemon and dir/inotify.c

`read` fills the buffer with records of different lengths: 16 bytes and the field `name`, whose length is one of the
16 bytes' members.  Two loops go through them with a pointer that each record moves on by its own length.

* (`encode`) the bytes of a record;
* (`eventAt_eq`) the record that is read where one begins;
* (`walk_visits`) the rule for both loops;
* (`loops_visit`) they visit the events of the buffer one after the other and stop at its end.
-/

namespace UnixTasks.Inotify

open CChar CString ForLoop

/-- `struct inotify_event`; the member `len` is the length of `name`. -/
structure InotifyEvent where
  wd : BitVec 32
  mask : BitVec 32
  cookie : BitVec 32
  name : List CChar
  deriving DecidableEq, Repr

/-- `sizeof(struct inotify_event)`. -/
def headerSize : Nat := 16

/-- `sizeof(buf)`. -/
def bufSize : Nat := 4096

def inModify : BitVec 32 := 0x2

def inMovedTo : BitVec 32 := 0x80

def inCreate : BitVec 32 := 0x100

def inDelete : BitVec 32 := 0x200

def inMoveSelf : BitVec 32 := 0x800

/-! ### The bytes of a record -/

/-- A member of four bytes, the lowest first. -/
def bytes32 (x : BitVec 32) : List CChar :=
  [.ofNat 8 x.toNat, .ofNat 8 (x.toNat / 256), .ofNat 8 (x.toNat / 256 ^ 2), .ofNat 8 (x.toNat / 256 ^ 3)]

/-- The member that four bytes hold. -/
def read32 (bs : List CChar) : BitVec 32 :=
  .ofNat 32 ((bs.getD 0 0).toNat + 256 * (bs.getD 1 0).toNat + 256 ^ 2 * (bs.getD 2 0).toNat +
    256 ^ 3 * (bs.getD 3 0).toNat)

def encode (e : InotifyEvent) : List CChar :=
  bytes32 e.wd ++ bytes32 e.mask ++ bytes32 e.cookie ++ bytes32 (.ofNat 32 e.name.length) ++ e.name

/-- What `read` puts into the buffer. -/
def encodeAll (evs : List InotifyEvent) : List CChar := evs.flatMap encode

/-! ### The members of the record that a pointer into the buffer points to -/

section Members

variable (buf : List CChar) (event : Nat)

def wdAt : BitVec 32 := read32 (buf.drop event)

def maskAt : BitVec 32 := read32 (buf.drop (event + 4))

def cookieAt : BitVec 32 := read32 (buf.drop (event + 8))

def lenAt : Nat := (read32 (buf.drop (event + 12))).toNat

/-- `event->name`, as a string: it is not looked at where the record ends. -/
def nameAt : List CChar := cstr (buf.drop (event + 16))

/-- `event->mask & bit`, as a condition. -/
def hasBit (bit : BitVec 32) : Bool := maskAt buf event &&& bit != 0

/-- The whole record. -/
def eventAt : InotifyEvent where
  wd := wdAt buf event
  mask := maskAt buf event
  cookie := cookieAt buf event
  name := (buf.drop (event + 16)).take (lenAt buf event)

end Members

private theorem read32_bytes32 (x : BitVec 32) (bs : List CChar) : read32 (bytes32 x ++ bs) = x := by
  have hx := x.isLt
  refine BitVec.eq_of_toNat_eq ?_
  simp only [read32, bytes32, List.cons_append, List.getD_cons_zero, List.getD_cons_succ, BitVec.toNat_ofNat]
  omega

theorem length_encode (e : InotifyEvent) : (encode e).length = headerSize + e.name.length := by
  simp [encode, bytes32, headerSize]
  omega

private theorem length_encodeAll_append_singleton (evs : List InotifyEvent) (e : InotifyEvent) :
    (encodeAll (evs ++ [e])).length = (encodeAll evs).length + headerSize + e.name.length := by
  simp [encodeAll, length_encode, Nat.add_assoc]

/-- A record that the list of events has fits the buffer if they all do. -/
private theorem length_name_lt {evs : List InotifyEvent} {e : InotifyEvent} (h : e ∈ evs)
    (hfits : (encodeAll evs).length ≤ bufSize) : e.name.length < 2 ^ 32 := by
  obtain ⟨pre, post, rfl⟩ := List.append_of_mem h
  simp only [encodeAll, List.flatMap_append, List.flatMap_cons, List.length_append, length_encode, bufSize] at hfits
  omega

section At

variable {buf rest : List CChar} {event : Nat} {e : InotifyEvent}

/-- The bytes from a member on. -/
private theorem drop_member (h : buf.drop event = encode e ++ rest) (k : Nat) :
    buf.drop (event + k) = (encode e ++ rest).drop k := by
  rw [← List.drop_drop, h]

private theorem wdAt_eq (h : buf.drop event = encode e ++ rest) : wdAt buf event = e.wd := by
  rw [wdAt, h]
  exact read32_bytes32 e.wd (bytes32 e.mask ++ bytes32 e.cookie ++ bytes32 (.ofNat 32 e.name.length) ++ e.name ++ rest)

theorem maskAt_eq (h : buf.drop event = encode e ++ rest) : maskAt buf event = e.mask := by
  rw [maskAt, drop_member h]
  exact read32_bytes32 e.mask (bytes32 e.cookie ++ bytes32 (.ofNat 32 e.name.length) ++ e.name ++ rest)

private theorem cookieAt_eq (h : buf.drop event = encode e ++ rest) : cookieAt buf event = e.cookie := by
  rw [cookieAt, drop_member h]
  exact read32_bytes32 e.cookie (bytes32 (.ofNat 32 e.name.length) ++ e.name ++ rest)

private theorem lenAt_eq (h : buf.drop event = encode e ++ rest) (hlen : e.name.length < 2 ^ 32) :
    lenAt buf event = e.name.length := by
  have hread : read32 (buf.drop (event + 12)) = .ofNat 32 e.name.length := by
    rw [drop_member h]
    exact read32_bytes32 (.ofNat 32 e.name.length) (e.name ++ rest)
  rw [lenAt, hread, BitVec.toNat_ofNat, Nat.mod_eq_of_lt hlen]

private theorem drop_name (h : buf.drop event = encode e ++ rest) : buf.drop (event + 16) = e.name ++ rest := by
  rw [drop_member h]
  rfl

/-- The record that is read where one begins. -/
theorem eventAt_eq (h : buf.drop event = encode e ++ rest) (hlen : e.name.length < 2 ^ 32) : eventAt buf event = e := by
  rw [eventAt, wdAt_eq h, maskAt_eq h, cookieAt_eq h, lenAt_eq h hlen, drop_name h, List.take_left]

/-- The name is the one of the record, if it ends there. -/
theorem nameAt_eq (h : buf.drop event = encode e ++ rest) (hnul : 0 ∈ e.name) : nameAt buf event = cstr e.name := by
  rw [nameAt, drop_name h]
  obtain ⟨t, ht⟩ := (cstr_cases e.name).resolve_left fun hnone => hnone.1 hnul
  rw [ht, List.append_assoc, List.cons_append, cstr_append_nul', cstr_append_nul']

end At

/-! ### The loop over the buffer -/

/-- The locals of the loop, the records that its body has been entered with, and what the body works on. -/
structure Walk (σ : Type*) where
  ptr : Nat
  event : Nat
  visited : List InotifyEvent
  rest : σ

variable {σ : Type*}

/-- `event = ptr`, and the rest of the body, which takes what it needs from the buffer. -/
def walkBody (act : List CChar → Nat → σ → Flow × σ) (buf : List CChar) (w : Walk σ) : Flow × Walk σ :=
  let left := act buf w.ptr w.rest
  (left.1, ⟨w.ptr, w.ptr, w.visited ++ [eventAt buf w.ptr], left.2⟩)

/-- `ptr += sizeof(struct inotify_event) + event->len`. -/
def walkIncr (buf : List CChar) (w : Walk σ) : Walk σ := { w with ptr := w.ptr + (headerSize + lenAt buf w.event) }

/-- `for (ptr = buf; ptr < buf + lenread; ...)`, for at most `fuel` tests of the condition; `event` is whatever it has
been before. -/
def walk (act : List CChar → Nat → σ → Flow × σ) (buf : List CChar) (lenread fuel event : Nat) (s : σ) :
    Option (Walk σ) :=
  forLoop (fun w => decide (w.ptr < lenread)) (walkIncr buf) (walkBody act buf) fuel ⟨0, event, [], s⟩

/-- `todo` is what the loop has still to visit. -/
structure Walked (R : List InotifyEvent → σ → Prop) (evs todo : List InotifyEvent) (w : Walk σ) : Prop where
  split : evs = w.visited ++ todo
  ptr : w.ptr = (encodeAll w.visited).length
  rest : R w.visited w.rest

section Walk

variable {act : List CChar → Nat → σ → Flow × σ} {evs todo : List InotifyEvent} {stale : List CChar}
  {R : List InotifyEvent → σ → Prop} {w : Walk σ} {e : InotifyEvent}

/-- The pointer is behind the records that have been visited, and in front of the others. -/
private theorem Walked.drop_ptr (h : Walked R evs todo w) :
    (encodeAll evs ++ stale).drop w.ptr = encodeAll todo ++ stale := by
  rw [h.ptr, h.split]
  simp [encodeAll]

private theorem Walked.ptr_add_length (h : Walked R evs todo w) :
    w.ptr + (encodeAll todo).length = (encodeAll evs).length := by
  rw [h.ptr, h.split]
  simp [encodeAll]

/-- While there is a record to visit, the pointer is in front of the end. -/
private theorem Walked.ptr_lt (h : Walked R evs (e :: todo) w) : w.ptr < (encodeAll evs).length := by
  have hbytes := h.ptr_add_length
  have hcons : (encodeAll (e :: todo)).length = (encode e).length + (encodeAll todo).length := by simp [encodeAll]
  have he := length_encode e
  rw [headerSize] at he
  omega

/-- One round visits the next record, and moves the pointer behind it. -/
theorem Walked.round (h : Walked R evs (e :: todo) w) (hlen : e.name.length < 2 ^ 32)
    (hact : R (w.visited ++ [e]) (act (encodeAll evs ++ stale) (encodeAll w.visited).length w.rest).2) :
    Walked R evs todo (walkIncr (encodeAll evs ++ stale) (walkBody act (encodeAll evs ++ stale) w).2) := by
  have hdrop : (encodeAll evs ++ stale).drop w.ptr = encode e ++ (encodeAll todo ++ stale) := by
    rw [h.drop_ptr]
    simp [encodeAll]
  refine ⟨?_, ?_, ?_⟩
  · simp only [walkIncr, walkBody, eventAt_eq hdrop hlen]
    rw [h.split, List.append_assoc, List.singleton_append]
  · simp only [walkIncr, walkBody, eventAt_eq hdrop hlen, lenAt_eq hdrop hlen]
    rw [length_encodeAll_append_singleton, h.ptr, Nat.add_assoc]
  · simp only [walkIncr, walkBody, eventAt_eq hdrop hlen]
    rw [h.ptr]
    exact hact

/-- A loop whose body does not break off visits the events of the buffer one after the other.  What the body keeps is
proved for a record `e` that begins at the pointer. -/
theorem walk_visits (hfits : (encodeAll evs).length ≤ bufSize)
    (hflow : ∀ event s, (act (encodeAll evs ++ stale) event s).1 ≠ .broken)
    (hact : ∀ pre e post s, evs = pre ++ e :: post → R pre s →
      R (pre ++ [e]) (act (encodeAll evs ++ stale) (encodeAll pre).length s).2)
    {fuel event : Nat} {s : σ} (hs : R [] s) (hfuel : evs.length < fuel) :
    ∃ w, walk act (encodeAll evs ++ stale) (encodeAll evs).length fuel event s = some w ∧ w.visited = evs ∧
      w.ptr = (encodeAll evs).length ∧ R evs w.rest := by
  have hstart : Walked R evs evs ⟨0, event, [], s⟩ := ⟨rfl, rfl, hs⟩
  have hnil : ∀ w : Walk σ, Walked R evs [] w → decide (w.ptr < (encodeAll evs).length) = false := by
    intro w hw
    rw [← hw.ptr_add_length]
    simp [encodeAll]
  have hcons : ∀ e todo (w : Walk σ), Walked R evs (e :: todo) w →
      decide (w.ptr < (encodeAll evs).length) = true ∧ (walkBody act (encodeAll evs ++ stale) w).1 ≠ .broken ∧
        Walked R evs todo (walkIncr (encodeAll evs ++ stale) (walkBody act (encodeAll evs ++ stale) w).2) := by
    intro e todo w hw
    have hlen : e.name.length < 2 ^ 32 := length_name_lt (by rw [hw.split]; simp) hfits
    exact ⟨decide_eq_true hw.ptr_lt, hflow _ _, hw.round hlen (hact w.visited e todo w.rest hw.split hw.rest)⟩
  obtain ⟨w, hwalk, hw⟩ := forLoop_of_list hnil hcons hstart hfuel
  have hvisited : w.visited = evs := by
    rw [hw.split, List.append_nil]
  refine ⟨w, hwalk, hvisited, ?_, ?_⟩
  · rw [hw.ptr, hvisited]
  · rw [← hvisited]
    exact hw.rest

end Walk

/-! ### dir/inotify.c -/

/-- What a line on the standard output is about. -/
inductive Kind where
  | create | delete | move
  deriving DecidableEq, Repr

/-- A line that is printed: the string that it names, and its text. -/
structure Report where
  kind : Kind
  name : List CChar
  text : List CChar
  deriving DecidableEq, Repr

/-- `printf(format, name)`, where `%s` stands between the two parts of the format. -/
def printf (kind : Kind) (before : String) (name : List CChar) (behind : String) : Report :=
  ⟨kind, name, before.toList.map chr ++ name ++ behind.toList.map chr⟩

/-- What the loop of dir/inotify.c does with a record: three `if`s, one after the other. -/
def reportEvent (argv1 buf : List CChar) (event : Nat) (out : List Report) : Flow × List Report :=
  let out := if hasBit buf event inCreate then
    out ++ [printf .create "creating " (nameAt buf event) " was detected\n"] else out
  let out := if hasBit buf event inDelete then
    out ++ [printf .delete "deleting " (nameAt buf event) " was detected\n"] else out
  let out := if hasBit buf event inMoveSelf then
    out ++ [printf .move "moving " argv1 " was detected\n"] else out
  (.finished, out)

theorem reportEvent_flow (argv1 buf : List CChar) (event : Nat) (out : List Report) :
    (reportEvent argv1 buf event out).1 ≠ .broken := by
  simp [reportEvent]

/-! ### `monitor_events` -/

/-- What `monitor_events` does with a record, by its parts: the comparison of `check` with the backup directory, and
what the three `if`s are for. -/
structure Monitor (σ : Type*) where
  isBackupDir : List CChar → Nat → σ → Bool
  created : List CChar → Nat → σ → σ
  modified : List CChar → Nat → σ → σ
  movedTo : List CChar → Nat → σ → σ

/-- The body of the loop. -/
def Monitor.handleEvent (m : Monitor σ) (buf : List CChar) (event : Nat) (s : σ) : Flow × σ :=
  if m.isBackupDir buf event s then (.continued, s)
  else
    let s := if hasBit buf event inCreate then m.created buf event s else s
    let s := if hasBit buf event inModify then m.modified buf event s else s
    let s := if hasBit buf event inMovedTo then m.movedTo buf event s else s
    (.finished, s)

private theorem Monitor.handleEvent_flow (m : Monitor σ) (buf : List CChar) (event : Nat) (s : σ) :
    (m.handleEvent buf event s).1 ≠ .broken := by
  unfold Monitor.handleEvent
  split <;> simp

/-- Whatever the bodies do with a record, both loops visit the events that the buffer begins with, each once and in
order, and end with the pointer behind them. -/
theorem loops_visit (evs : List InotifyEvent) (stale : List CChar) (hfits : (encodeAll evs).length ≤ bufSize)
    (fuel : Nat) (hfuel : evs.length < fuel) (event : Nat) :
    (∀ (σ : Type) (m : Monitor σ) (s : σ), ∃ w,
      walk m.handleEvent (encodeAll evs ++ stale) (encodeAll evs).length fuel event s = some w ∧
        w.visited = evs ∧ w.ptr = (encodeAll evs).length) ∧
    ∀ argv1 out, ∃ w,
      walk (reportEvent argv1) (encodeAll evs ++ stale) (encodeAll evs).length fuel event out = some w ∧
        w.visited = evs ∧ w.ptr = (encodeAll evs).length := by
  constructor
  · intro σ m s
    obtain ⟨w, hwalk, hvisited, hptr, -⟩ := walk_visits (R := fun _ _ => True) hfits
      (m.handleEvent_flow (encodeAll evs ++ stale)) (fun _ _ _ _ _ _ => trivial) trivial hfuel
    exact ⟨w, hwalk, hvisited, hptr⟩
  · intro argv1 out
    obtain ⟨w, hwalk, hvisited, hptr, -⟩ := walk_visits (R := fun _ _ => True) hfits
      (reportEvent_flow argv1 (encodeAll evs ++ stale)) (fun _ _ _ _ _ _ => trivial) trivial hfuel
    exact ⟨w, hwalk, hvisited, hptr⟩

/-- The first of two records is the backup directory and is left by `continue`. -/
theorem loops_visit_two : ∃ w,
    walk (⟨fun _ event _ => event == 0, fun _ _ n => n + 1, fun _ _ n => n + 2, fun _ _ n => n⟩ :
        Monitor Nat).handleEvent
      (encodeAll [⟨1, inCreate, 0, [98, 0]⟩, ⟨1, inModify, 0, [97, 0, 0, 0]⟩] ++ [7, 7])
      (encodeAll [⟨1, inCreate, 0, [98, 0]⟩, ⟨1, inModify, 0, [97, 0, 0, 0]⟩]).length 3 5 0 = some w ∧
      w.visited = [⟨1, inCreate, 0, [98, 0]⟩, ⟨1, inModify, 0, [97, 0, 0, 0]⟩] ∧
      w.ptr = (encodeAll [⟨1, inCreate, 0, [98, 0]⟩, ⟨1, inModify, 0, [97, 0, 0, 0]⟩]).length :=
  (loops_visit [⟨1, inCreate, 0, [98, 0]⟩, ⟨1, inModify, 0, [97, 0, 0, 0]⟩] [7, 7] (by decide) 3 (by decide)
    5).1 Nat _ 0

end UnixTasks.Inotify
