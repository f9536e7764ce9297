import UnixTasks.Log.Log

/-!
# The bounds of the buffer: udp/log.c

Every `sprintf` and `vsnprintf` of a call writes behind the cursor, or over the whole buffer.  The cursor is moved back
only when a record has been written: calls that fail push it on.

* (`prints`) where a call writes, and how much;
* (`cursor`) where the calls that have been made leave the cursor: behind the heads of those that came after the last
  record was written;
* (`Room`) the texts of a call fit behind the cursor;
* (`Tidy`) the cursor is inside the buffer, in front of it there is no NUL;
* (`inside_iff_room`) in a run everything stays inside the buffer if and only if every call has room.
-/

namespace UnixTasks.Log

open ActionSystem CChar CString

/-! ### What a call prints -/

/-- A `sprintf` or `vsnprintf` into the buffer: the place it begins at, and how many characters it produces. -/
structure Print where
  pos : Nat
  length : Nat
  deriving DecidableEq, Repr

/-- The characters and the NUL are inside the buffer; `BUFSZ - pos` is not negative. -/
def Print.Inside (p : Print) : Prop := p.pos ≤ bufSz ∧ p.pos + p.length + 1 ≤ bufSz

instance (p : Print) : Decidable p.Inside := inferInstanceAs (Decidable (_ ∧ _))

/-- `sprintf(buf + pos, "[%s]", t)`, and what follows unless it leaves the buffer. -/
def printBracket (s : State) (t : List CChar) (k : State → List Print) : List Print :=
  ⟨s.pos, (bracketed t).length⟩ ::
    match s.bracket t with
    | some s => k s
    | none => []

/-- `vsnprintf`, and for an error the second `sprintf`. -/
def printFormat (c : Call) (s : State) : List Print :=
  ⟨s.pos, ((cstr c.message).take (bufSz - s.pos - 1)).length⟩ ::
    if c.level = ERR then
      let buf := vsnprintfAt s.buf s.pos (cstr c.message)
      [⟨0, (cstr buf ++ text ": " ++ cstr c.strerror ++ [10]).length⟩]
    else []

/-- What a call prints into the buffer, one after the other. -/
def prints (s : State) (c : Call) : List Print :=
  if c.Bad then []
  else
    printBracket s (nbuf c.level) fun s =>
    printBracket s (cstr c.ctime).dropLast fun s =>
    printBracket s (cstr c.pid) (printFormat c)

/-- Everything that the call prints is inside the buffer. -/
def Inside (s : State) (c : Call) : Prop := ∀ p ∈ prints s c, p.Inside

instance (s : State) (c : Call) : Decidable (Inside s c) := inferInstanceAs (Decidable (∀ p ∈ _, _))

/-! ### The cursor as a function of the calls -/

/-- The descriptor after the calls, the latest one first: a call that finds none asks for one. -/
def descriptor (fd : Int) : List Call → Int
  | [] => fd
  | c :: past => if descriptor fd past < 0 ∧ ¬ c.Bad then c.opened else descriptor fd past

/-- The calls since a record was written, the latest one first. A call for a level that there is not returns before it
has written anything. -/
def unwritten (fd : Int) : List Call → List Call
  | [] => []
  | c :: past =>
    if c.Bad then unwritten fd past
    else if c.Succeeds (descriptor fd past) then []
    else c :: unwritten fd past

/-- The heads of the calls since a record was written are in front of the cursor. -/
def cursor (fd : Int) (past : List Call) : Nat := ((unwritten fd past).map fun c => c.head.length).sum

/-- There is no such level, or there is room behind `pos` for the level, the time and the pid; and an error also has
room for its second text behind what is then in the buffer. -/
def Room (pos : Nat) (c : Call) : Prop :=
  c.Bad ∨ (pos + c.head.length < bufSz ∧
    (c.level = ERR →
      min (pos + c.head.length + (cstr c.message).length) (bufSz - 1) + (cstr c.strerror).length + 3 < bufSz))

instance (pos : Nat) (c : Call) : Decidable (Room pos c) := inferInstanceAs (Decidable (_ ∨ _))

/-- Every call has room where the calls before it leave the cursor. -/
def AllRoom (fd : Int) (cs : List Call) : Prop :=
  ∀ before c behind, cs = before ++ c :: behind → Room (cursor fd before.reverse) c

/-! ### The cursor -/

/-- The cursor is inside the buffer, and there is no NUL in front of it. -/
structure State.Tidy (s : State) : Prop where
  length : s.buf.length = bufSz
  pos : s.pos < bufSz
  nul : 0 ∉ s.buf.take s.pos

private theorem State.Clean.tidy {s : State} (h : s.Clean) : s.Tidy := by
  refine ⟨by rw [h.buf, zeros, List.length_replicate], by rw [h.pos]; decide, ?_⟩
  rw [h.pos, List.take_zero]
  exact List.not_mem_nil

section Write

variable {buf u : List CChar} {pos : Nat}

private theorem length_written (hbuf : buf.length = bufSz) (h : pos + u.length < bufSz) :
    (buf.take pos ++ u ++ 0 :: buf.drop (pos + u.length + 1)).length = bufSz := by
  simp only [List.length_append, List.length_take, List.length_cons, List.length_drop]
  omega

/-- In front of the end of what has been written there is what was in front of it. -/
private theorem take_written (hpos : pos ≤ buf.length) (rest : List CChar) :
    (buf.take pos ++ u ++ rest).take (pos + u.length) = buf.take pos ++ u := by
  have hlen : (buf.take pos ++ u).length = pos + u.length := by
    rw [List.length_append, List.length_take_of_le hpos]
  rw [← hlen, List.take_left]

end Write

variable {s : State} {c : Call}

/-- A text between brackets moves the cursor on if it fits. -/
private theorem State.Tidy.bracket_of_lt (h : s.Tidy) {t : List CChar} (ht : 0 ∉ t)
    (hlen : s.pos + (bracketed t).length < bufSz) :
    ∃ s', s.bracket t = some s' ∧ s'.Tidy ∧ s'.pos = s.pos + (bracketed t).length ∧ s'.fd = s.fd := by
  have hle : s.pos ≤ s.buf.length := by
    rw [h.length]
    exact h.pos.le
  refine ⟨⟨_, s.fd, s.pos + (bracketed t).length⟩, ?_, ⟨length_written h.length hlen, hlen, ?_⟩, rfl, rfl⟩
  · rw [State.bracket, sprintfAt, if_pos hlen, Option.map_some]
  · rw [take_written hle, List.mem_append, not_or]
    exact ⟨h.nul, nul_notMem_bracketed ht⟩

/-- A text between brackets moves the cursor on, or leaves the buffer. -/
theorem State.Tidy.bracket (h : s.Tidy) {t : List CChar} (ht : 0 ∉ t) :
    (bufSz ≤ s.pos + (bracketed t).length ∧ s.bracket t = none) ∨
      (s.pos + (bracketed t).length < bufSz ∧
        ∃ s', s.bracket t = some s' ∧ s'.Tidy ∧ s'.pos = s.pos + (bracketed t).length) := by
  rcases Nat.lt_or_ge (s.pos + (bracketed t).length) bufSz with hlen | hlen
  · right
    obtain ⟨s', hs', htidy, hcursor, -⟩ := h.bracket_of_lt ht hlen
    exact ⟨hlen, s', hs', htidy, hcursor⟩
  · left
    exact ⟨hlen, by rw [State.bracket, sprintfAt_eq_none hlen, Option.map_none]⟩

/-- The buffer after `vsnprintf`: its string is what was in front of the cursor and the text, cut at the end. -/
theorem State.Tidy.vsnprintf (h : s.Tidy) {t : List CChar} (ht : 0 ∉ t) :
    (vsnprintfAt s.buf s.pos t).length = bufSz ∧ (vsnprintfAt s.buf s.pos t).take s.pos = s.buf.take s.pos ∧
      (cstr (vsnprintfAt s.buf s.pos t)).length = min (s.pos + t.length) (bufSz - 1) ∧
      s.buf.take s.pos <+: cstr (vsnprintfAt s.buf s.pos t) := by
  have hpos := h.pos
  have hle : s.pos ≤ s.buf.length := by
    rw [h.length]
    exact hpos.le
  have hcut : (t.take (bufSz - s.pos - 1)).length = min (bufSz - s.pos - 1) t.length := List.length_take ..
  have hnul : 0 ∉ s.buf.take s.pos ++ t.take (bufSz - s.pos - 1) := by
    rw [List.mem_append, not_or]
    exact ⟨h.nul, fun hmem => ht (List.mem_of_mem_take hmem)⟩
  have htake : (s.buf.take s.pos).length = s.pos := List.length_take_of_le hle
  unfold vsnprintfAt
  refine ⟨length_written h.length (by omega), ?_, ?_, ?_⟩
  · rw [List.append_assoc, List.take_append_of_le_length htake.ge, List.take_of_length_le htake.le]
  · rw [cstr_append_nul hnul, List.length_append, htake, hcut]
    omega
  · rw [cstr_append_nul hnul]
    exact List.prefix_append ..

/-- The second text of an error leaves what is in front of the cursor. -/
theorem State.Tidy.format (h : s.Tidy) {s' : State} (hformat : format s c = some s') : s'.Tidy := by
  obtain ⟨hlen, htake, -, hpre⟩ := h.vsnprintf (nul_notMem_cstr c.message)
  unfold Log.format at hformat
  simp only at hformat
  generalize vsnprintfAt s.buf s.pos (cstr c.message) = buf at hlen htake hpre hformat
  split at hformat
  · rw [sprintfAt] at hformat
    split at hformat
    · rename_i hfits
      rw [← Option.some.inj hformat]
      refine ⟨length_written hlen hfits, h.pos, ?_⟩
      obtain ⟨t, ht⟩ := hpre
      have hle : (s.buf.take s.pos).length = s.pos := by
        rw [List.length_take, h.length]
        exact Nat.min_eq_left h.pos.le
      rw [List.take_zero, List.nil_append, ← ht]
      simp only [List.append_assoc]
      rw [List.take_append_of_le_length hle.ge, List.take_of_length_le hle.le]
      exact h.nul
    · cases hformat
  · rw [← Option.some.inj hformat]
    refine ⟨hlen, h.pos, ?_⟩
    simp only [htake]
    exact h.nul

/-- The second text of an error fits if there is room for it. -/
private theorem State.Tidy.format_of_room (h : s.Tidy) (hroom : c.level = ERR →
    min (s.pos + (cstr c.message).length) (bufSz - 1) + (cstr c.strerror).length + 3 < bufSz) :
    ∃ s', Log.format s c = some s' ∧ s'.pos = s.pos ∧ s'.fd = s.fd := by
  obtain ⟨-, -, hlen, -⟩ := h.vsnprintf (nul_notMem_cstr c.message)
  unfold Log.format
  simp only
  generalize vsnprintfAt s.buf s.pos (cstr c.message) = buf at hlen
  split
  · rename_i herr
    have hsep : (text ": ").length = 2 := rfl
    have hfits : 0 + (cstr buf ++ text ": " ++ cstr c.strerror ++ [10]).length < bufSz := by
      have hlt := hroom herr
      simp only [List.length_append, hlen, hsep, List.length_singleton]
      omega
    rw [sprintfAt, if_pos hfits]
    exact ⟨_, rfl, rfl, rfl⟩
  · exact ⟨_, rfl, rfl, rfl⟩

/-! ### The cursor after a call -/

private theorem tidy_of_after {checks : Bool} {r : State × Int} {k : State → Option (State × Int × List CChar)}
    {x : State × Int × List CChar} (hr : r.1.Tidy) (hk : ∀ s, s.Tidy → ∀ x, k s = some x → x.1.Tidy)
    (h : after checks r k = some x) : x.1.Tidy := by
  unfold after at h
  split at h
  · rwa [← Option.some.inj h]
  · exact hk r.1 hr x h

/-- A function is called, and what follows leads from a tidy state to one. -/
private theorem tidy_of_bind {checks : Bool} {f : Option (State × Int)} {k : State → Option (State × Int × List CChar)}
    {x : State × Int × List CChar} (hf : ∀ r, f = some r → r.1.Tidy)
    (hk : ∀ s, s.Tidy → ∀ x, k s = some x → x.1.Tidy) (h : (f.bind fun r => after checks r k) = some x) : x.1.Tidy := by
  obtain ⟨r, hr, hafter⟩ := Option.bind_eq_some_iff.1 h
  exact tidy_of_after (hf r hr) hk hafter

private theorem State.Tidy.of_bracket (h : s.Tidy) {t : List CChar} (ht : 0 ∉ t) {ret : Int} {r : State × Int}
    (hr : (s.bracket t).map (·, ret) = some r) : r.1.Tidy := by
  obtain ⟨s', hs', rfl⟩ := Option.map_eq_some_iff.1 hr
  rcases h.bracket ht with ⟨-, hnone⟩ | ⟨-, t', ht', htidy, -⟩
  · rw [hnone] at hs'
    cases hs'
  · rw [ht'] at hs'
    rwa [← Option.some.inj hs']

theorem State.Tidy.writeRecord (h : s.Tidy) : (writeRecord s c).1.Tidy := by
  have hreset : (⟨zeros bufSz, s.fd, 0⟩ : State).Tidy := State.Clean.tidy ⟨rfl, rfl⟩
  unfold Log.writeRecord
  split
  · exact h
  · split
    · split
      · exact h
      · exact hreset
    · exact hreset

/-- No call moves the cursor out of the buffer. -/
theorem State.Tidy.call (h : s.Tidy) {checks : Bool} {s' : State} (hcall : s.call checks c = some s') : s'.Tidy := by
  obtain ⟨x, hx, rfl⟩ := Option.map_eq_some_iff.1 hcall
  refine tidy_of_bind (fun r hr => ?_) (fun s₁ h₁ x hx => ?_) hx
  · unfold getLogLevel at hr
    split at hr
    · rwa [← Option.some.inj hr]
    · exact h.of_bracket (nul_notMem_nbuf _) hr
  · refine tidy_of_bind (fun r hr => h₁.of_bracket (nul_notMem_ctime _) hr) (fun s₂ h₂ x hx => ?_) hx
    refine tidy_of_bind (fun r hr => h₂.of_bracket (nul_notMem_cstr _) hr) (fun s₃ h₃ x hx => ?_) hx
    obtain ⟨s₄, hformat, hopen⟩ := Option.bind_eq_some_iff.1 hx
    have h₄ := h₃.format hformat
    refine tidy_of_after ?_ (fun s₅ h₅ x hx => ?_) hopen
    · split
      · exact ⟨h₄.length, h₄.pos, h₄.nul⟩
      · exact h₄
    · rw [← Option.some.inj hx]
      exact h₅.writeRecord

/-! ### Room -/

/-- A text between brackets and everything behind it is inside the buffer. -/
private theorem forall_printBracket_iff (h : s.Tidy) {t : List CChar} (ht : 0 ∉ t) {k : State → List Print} {Q : Prop}
    (hk : ∀ s', s'.Tidy → s'.pos = s.pos + (bracketed t).length → ((∀ p ∈ k s', p.Inside) ↔ Q)) :
    (∀ p ∈ printBracket s t k, p.Inside) ↔ s.pos + (bracketed t).length < bufSz ∧ Q := by
  have hpos := h.pos
  rw [printBracket, List.forall_mem_cons]
  rcases h.bracket ht with ⟨hlen, hnone⟩ | ⟨hlen, s', hs', htidy, hcursor⟩
  · refine iff_of_false (fun hall => ?_) (fun hall => ?_)
    · have hin : s.pos + (bracketed t).length + 1 ≤ bufSz := hall.1.2
      omega
    · omega
  · rw [hs']
    simp only [hk s' htidy hcursor]
    exact and_congr_left fun _ => iff_of_true ⟨hpos.le, hlen⟩ hlen

/-- `vsnprintf` never leaves the buffer; the second text of an error does not if there is room for it. -/
private theorem forall_printFormat_iff (h : s.Tidy) :
    (∀ p ∈ printFormat c s, p.Inside) ↔
      (c.level = ERR →
        min (s.pos + (cstr c.message).length) (bufSz - 1) + (cstr c.strerror).length + 3 < bufSz) := by
  have hpos := h.pos
  have hcut : ((cstr c.message).take (bufSz - s.pos - 1)).length ≤ bufSz - s.pos - 1 := List.length_take_le ..
  have hfirst : (⟨s.pos, ((cstr c.message).take (bufSz - s.pos - 1)).length⟩ : Print).Inside :=
    ⟨hpos.le, by simp only; omega⟩
  rw [printFormat, List.forall_mem_cons, and_iff_right hfirst]
  split
  · rename_i herr
    obtain ⟨-, -, hlen, -⟩ := h.vsnprintf (nul_notMem_cstr c.message)
    have hsep : (text ": ").length = 2 := rfl
    simp only [List.forall_mem_singleton, Print.Inside, List.length_append, hlen, hsep, List.length_singleton,
      herr, true_implies]
    omega
  · rename_i herr
    simp [herr]

/-- A call stays inside the buffer if and only if it has room. -/
theorem inside_iff (h : s.Tidy) : Inside s c ↔ Room s.pos c := by
  unfold Inside prints Room
  by_cases hbad : c.Bad
  · simp [hbad]
  have hhead : c.head.length = (bracketed (nbuf c.level)).length + (bracketed (cstr c.ctime).dropLast).length +
      (bracketed (cstr c.pid)).length := by
    rw [Call.head, if_neg hbad, List.length_append, List.length_append]
  rw [if_neg hbad, or_iff_right hbad]
  generalize hQ : (c.level = ERR →
    min (s.pos + c.head.length + (cstr c.message).length) (bufSz - 1) + (cstr c.strerror).length + 3 < bufSz) = Q
  have hformat : ∀ s₃ : State, s₃.Tidy → s₃.pos = s.pos + c.head.length →
      ((∀ p ∈ printFormat c s₃, p.Inside) ↔ Q) := by
    intro s₃ h₃ hpos
    rw [forall_printFormat_iff h₃, hpos, hQ]
  have hpid : ∀ s₂ : State, s₂.Tidy →
      s₂.pos = s.pos + (bracketed (nbuf c.level)).length + (bracketed (cstr c.ctime).dropLast).length →
      ((∀ p ∈ printBracket s₂ (cstr c.pid) (printFormat c), p.Inside) ↔ s.pos + c.head.length < bufSz ∧ Q) := by
    intro s₂ h₂ hpos
    have hend : s₂.pos + (bracketed (cstr c.pid)).length = s.pos + c.head.length := by omega
    rw [forall_printBracket_iff h₂ (nul_notMem_cstr _) fun s₃ h₃ hpos₃ => hformat s₃ h₃ (by omega), hend]
  have htime : ∀ s₁ : State, s₁.Tidy → s₁.pos = s.pos + (bracketed (nbuf c.level)).length →
      ((∀ p ∈ printBracket s₁ (cstr c.ctime).dropLast fun s => printBracket s (cstr c.pid) (printFormat c), p.Inside) ↔
        s₁.pos + (bracketed (cstr c.ctime).dropLast).length < bufSz ∧ s.pos + c.head.length < bufSz ∧ Q) := by
    intro s₁ h₁ hpos
    exact forall_printBracket_iff h₁ (nul_notMem_ctime _) fun s₂ h₂ hpos₂ => hpid s₂ h₂ (by omega)
  have hall := forall_printBracket_iff h (nul_notMem_nbuf c.level) (Q := s.pos + c.head.length < bufSz ∧ Q)
    fun s₁ h₁ hpos₁ => (htime s₁ h₁ hpos₁).trans (and_iff_right_of_imp fun hq => by omega)
  rw [hall]
  exact and_iff_right_of_imp fun hq => by omega

/-! ### Where a call leaves the cursor -/

/-- With a descriptor, the cursor goes back if and only if the record and its newline are written. -/
private theorem pos_writeRecord (hfd : 0 ≤ s.fd) : (writeRecord s c).1.fd = s.fd ∧
    (writeRecord s c).1.pos = if c.Succeeds s.fd then 0 else s.pos := by
  split
  · rename_i hsucceeds
    rw [writeRecord_of_succeeds hfd hsucceeds]
    exact ⟨rfl, rfl⟩
  · rename_i hfails
    rw [writeRecord_of_fails fun hall => hfails ⟨.inl hall.1, hall.2⟩]
    exact ⟨rfl, rfl⟩

/-- What happens to a record that has been put together. -/
private theorem after_logInit (s : State) (c : Call) : ∃ t ret written,
    after true (if s.fd < 0 then logInit s c.opened else (s, 0)) (fun s => some (writeRecord s c)) =
        some (t, ret, written) ∧
      t.fd = (if s.fd < 0 then c.opened else s.fd) ∧ t.pos = if c.Succeeds s.fd then 0 else s.pos := by
  by_cases hfd : s.fd < 0
  · rw [if_pos hfd, if_pos hfd, logInit]
    by_cases hopened : c.opened < 0
    · have hfails : ¬ c.Succeeds s.fd := fun hsucceeds => by
        rcases hsucceeds.1 with hopen | hopen <;> omega
      rw [if_pos hopened, if_neg hfails, after, if_pos ⟨rfl, (by decide : (-1 : Int) < 0)⟩]
      exact ⟨_, _, _, rfl, rfl, rfl⟩
    · have hopen : 0 ≤ c.opened := by omega
      have hsucceeds : c.Succeeds c.opened ↔ c.Succeeds s.fd :=
        and_congr_left fun _ => iff_of_true (.inl hopen) (.inr hopen)
      obtain ⟨hkeep, hcursor⟩ := pos_writeRecord (s := { s with fd := c.opened }) (c := c) hopen
      rw [if_neg hopened, after_zero]
      exact ⟨_, _, _, rfl, hkeep, hcursor.trans (if_congr hsucceeds rfl rfl)⟩
  · obtain ⟨hkeep, hcursor⟩ := pos_writeRecord (s := s) (c := c) (by omega)
    rw [if_neg hfd, if_neg hfd, after_zero]
    exact ⟨_, _, _, rfl, hkeep, hcursor⟩

/-- A call for a level that there is puts its head in front of the cursor, and takes everything away when the record is
written. -/
private theorem State.Tidy.call_of_room (h : s.Tidy) (hbad : ¬ c.Bad) (hroom : Room s.pos c) :
    ∃ t, s.call true c = some t ∧ t.fd = (if s.fd < 0 then c.opened else s.fd) ∧
      t.pos = if c.Succeeds s.fd then 0 else s.pos + c.head.length := by
  obtain ⟨hfits, hsecond⟩ := hroom.resolve_left hbad
  have hhead : c.head.length = (bracketed (nbuf c.level)).length + (bracketed (cstr c.ctime).dropLast).length +
      (bracketed (cstr c.pid)).length := by
    rw [Call.head, if_neg hbad, List.length_append, List.length_append]
  obtain ⟨s₁, hs₁, h₁, hpos₁, hfd₁⟩ := h.bracket_of_lt (nul_notMem_nbuf c.level) (by omega)
  obtain ⟨s₂, hs₂, h₂, hpos₂, hfd₂⟩ := h₁.bracket_of_lt (nul_notMem_ctime c.ctime) (by omega)
  obtain ⟨s₃, hs₃, h₃, hpos₃, hfd₃⟩ := h₂.bracket_of_lt (nul_notMem_cstr c.pid) (by omega)
  have hpos : s₃.pos = s.pos + c.head.length := by omega
  obtain ⟨s₄, hs₄, hpos₄, hfd₄⟩ := h₃.format_of_room (c := c) (by rw [hpos]; exact hsecond)
  obtain ⟨t, ret, written, ht, hfd, hcursor⟩ := after_logInit s₄ c
  have hkeep : s₄.fd = s.fd := by rw [hfd₄, hfd₃, hfd₂, hfd₁]
  refine ⟨t, ?_, by rw [hfd, hkeep], by rw [hcursor, hkeep, hpos₄, hpos]⟩
  have hlevel : getLogLevel s c.level = some (s₁, 0) := by
    have hget : getLogLevel s c.level = (s.bracket (nbuf c.level)).map (·, 0) := if_neg hbad
    rw [hget, hs₁, Option.map_some]
  have htime : getTime s₁ c.ctime = some (s₂, 0) := by rw [getTime, hs₂, Option.map_some]
  have hpid : pastePid s₂ c.pid = some (s₃, 0) := by rw [pastePid, hs₃, Option.map_some]
  rw [State.call, logError, hlevel, Option.bind_some, after_zero, htime, Option.bind_some, after_zero, hpid,
    Option.bind_some, after_zero, hs₄, Option.bind_some, ht, Option.map_some]

/-! ### Runs -/

/-- The state is the one that the calls, the latest one first, have left. -/
structure State.After (s : State) (fd : Int) (past : List Call) : Prop where
  tidy : s.Tidy
  open_eq : s.fd = descriptor fd past
  pos : s.pos = cursor fd past

/-- A call that has room leaves the state of one call more. -/
theorem State.After.call {fd : Int} {past : List Call} (h : s.After fd past) (hroom : Room s.pos c) :
    ∃ t, s.call true c = some t ∧ t.After fd (c :: past) := by
  by_cases hbad : c.Bad
  · have hcall : s.call true c = some s := by
      have hget : getLogLevel s c.level = some (s, -1) := if_pos hbad
      rw [State.call, logError, hget, Option.bind_some, after, if_pos ⟨rfl, (by decide : (-1 : Int) < 0)⟩,
        Option.map_some]
    refine ⟨s, hcall, h.tidy, ?_, ?_⟩
    · rw [h.open_eq, descriptor, if_neg fun hneg => hneg.2 hbad]
    · rw [h.pos, cursor, cursor, unwritten, if_pos hbad]
  · obtain ⟨t, ht, hfd, hpos⟩ := h.tidy.call_of_room hbad hroom
    refine ⟨t, ht, h.tidy.call ht, ?_, ?_⟩
    · rw [hfd, h.open_eq, descriptor]
      exact if_congr (and_iff_left hbad).symm rfl rfl
    · rw [hpos, h.open_eq, cursor, unwritten, if_neg hbad]
      split
      · rfl
      · rw [List.map_cons, List.sum_cons, h.pos, cursor, Nat.add_comm]

private theorem inside_iff_room_after {fd : Int} {past cs : List Call} (h : s.After fd past) :
    AllSteps (State.call true) Inside s cs ↔
      ∀ before c behind, cs = before ++ c :: behind → Room (cursor fd (before.reverse ++ past)) c := by
  induction cs generalizing s past with
  | nil => exact iff_of_true trivial fun before c behind hsplit => absurd hsplit (by simp)
  | cons c cs ih =>
    have hfirst : Inside s c ↔ Room (cursor fd past) c := by rw [inside_iff h.tidy, h.pos]
    constructor
    · intro hinside before d behind hsplit
      have hroom := hfirst.1 hinside.1
      obtain ⟨t, ht, hafter⟩ := h.call (by rw [h.pos]; exact hroom)
      cases before with
      | nil =>
        obtain ⟨rfl, -⟩ := List.cons.inj hsplit
        exact hroom
      | cons b before =>
        obtain ⟨rfl, htail⟩ := List.cons.inj hsplit
        rw [List.reverse_cons, List.append_assoc]
        exact (ih hafter).1 ((allSteps_cons ht).1 hinside).2 before d behind htail
    · intro hall
      have hroom : Room (cursor fd past) c := hall [] c cs rfl
      obtain ⟨t, ht, hafter⟩ := h.call (by rw [h.pos]; exact hroom)
      refine (allSteps_cons ht).2 ⟨hfirst.2 hroom, (ih hafter).2 fun before d behind htail => ?_⟩
      have hlater := hall (c :: before) d behind (congrArg (c :: ·) htail)
      rwa [List.reverse_cons, List.append_assoc] at hlater

/-- In every sequence of calls, whatever the system answers: everything that is printed stays inside the buffer if and
only if every call has room behind the heads of the calls that came after the last record was written. -/
theorem inside_iff_room (s : State) (hs : s.Clean) (cs : List Call) :
    AllSteps (State.call true) Inside s cs ↔ AllRoom s.fd cs := by
  have hafter : s.After s.fd [] := ⟨hs.tidy, rfl, hs.pos⟩
  rw [inside_iff_room_after hafter]
  simp only [List.append_nil, AllRoom]

/-- Two errors, of which the first cannot be written. -/
theorem inside_iff_room_two : AllSteps (State.call true) Inside ⟨zeros bufSz, 0, 0⟩
      [⟨ERR, text "noon", text "7", text "full", text "No space", 3, false, true⟩,
        ⟨ERR, text "noon", text "7", text "again", text "No space", 3, true, true⟩] ↔
    AllRoom 0
      [⟨ERR, text "noon", text "7", text "full", text "No space", 3, false, true⟩,
        ⟨ERR, text "noon", text "7", text "again", text "No space", 3, true, true⟩] :=
  inside_iff_room ⟨zeros bufSz, 0, 0⟩ ⟨rfl, rfl⟩ _

/-- The time and the pid have brackets. -/
private theorem four_le_length_head (c : Call) : 4 ≤ c.head.length := by
  have hbrackets : ∀ t, 2 ≤ (bracketed t).length := by simp [bracketed, text]
  have htime := hbrackets (cstr c.ctime).dropLast
  have hpid := hbrackets (cstr c.pid)
  rw [Call.head, List.length_append, List.length_append]
  omega

/-- The first call of all is an error with a message of 250 characters: the second text is longer than the buffer. -/
theorem leaves_buffer : ¬ AllSteps (State.call true) Inside ⟨zeros bufSz, 0, 0⟩
    [⟨ERR, text "Thu Jan  1 00:00:00 1970\n", text "1234", List.replicate 250 120, text "No such file or directory", 3,
      true, true⟩] := by
  rintro ⟨hinside, -⟩
  have hmessage : (cstr (List.replicate 250 120)).length = 250 := by
    rw [cstr_of_notMem fun h => absurd (List.eq_of_mem_replicate h) (by decide), List.length_replicate]
  rcases (inside_iff (State.Clean.tidy ⟨rfl, rfl⟩)).1 hinside with hbad | ⟨-, hroom⟩
  · exact absurd hbad (by decide)
  · have hlt := hroom rfl
    have hhead := four_le_length_head ⟨ERR, text "Thu Jan  1 00:00:00 1970\n", text "1234", List.replicate 250 120,
      text "No such file or directory", 3, true, true⟩
    simp only [hmessage, bufSz] at hlt
    omega

end UnixTasks.Log
