import UnixTasks.Udp.Shell

/-!
# The output of a bash

`read_bash` reads the pty in pieces of at most 256 bytes and passes each of them to `send_info`.  It goes on while
`poll` reports `POLLIN` alone: what is in the pty when the bash has closed it stays there, and as `bash_work` is 0 from
then on, nobody reads it later.

* (`Accounted`) every byte that a bash has written was passed to `send_info`, is in the buffer or is still in the pty,
  in this order;
* (`delivered_iff`) which polls lose nothing;
* (`read_bash_delivers_iff`) the runs in which `read_bash` returns 1 only after it has passed on everything.
-/

namespace UnixTasks.Udp.Shell

open CChar CString ActionSystem

/-- The bytes that `read_bash` has read from the pty `i` and passed to `send_info`. -/
def State.passed (s : State) (i : Nat) : List CChar :=
  (s.sent.filter (·.fd = i)).flatMap fun e => e.readbuf.take e.ret

/-- The bytes of the pty `i` that are in the buffer of `read_bash`. -/
def State.inBuffer (s : State) (i : Nat) : List CChar :=
  match s.place with
  | .sendInfo ret readbuf => if s.fd = some i then readbuf.take ret else []
  | _ => []

/-- When `read_bash` has returned 1, everything that the bash behind `*fd` has written has been passed to
`send_info`. -/
def Delivered (s : State) : Prop :=
  s.place = .returned 1 → ∃ i b, s.fd = some i ∧ s.bashes[i]? = some b ∧ s.passed i = b.written

/-- When `poll` finds the pty closed, all of its output has been read. -/
def DrainsFirst (s : State) : Action → Prop
  | .poll => ∀ b ∈ s.current, b.closed = true → b.unread = []
  | _ => True

/-- What has been read from a pty has been passed to `send_info` or is about to be. -/
structure Accounted (s : State) : Prop where
  taken : ∀ i b, s.bashes[i]? = some b → s.passed i ++ s.inBuffer i = b.taken
  sent : ∀ e ∈ s.sent, e.fd < s.bashes.length

/-- `read_bash` has returned 1 because the pty behind `*fd` is closed. -/
def HungUp (s : State) : Prop :=
  s.place = .returned 1 → ∃ i b, s.fd = some i ∧ s.bashes[i]? = some b ∧ b.closed = true

theorem accounted_start : Accounted .start where
  taken i b hb := by cases hb
  sent e he := by cases he

section Steps

variable {s t : State} {a : Action} {i : Nat} {b b' : Bash}

/-- Everything that a bash has written, in order. -/
theorem Accounted.written_eq (h : Accounted s) (hb : s.bashes[i]? = some b) :
    b.written = s.passed i ++ s.inBuffer i ++ b.unread := by
  rw [h.taken i b hb, Bash.written]

theorem inBuffer_of_place (hplace : ∀ ret readbuf, s.place ≠ .sendInfo ret readbuf) : s.inBuffer i = [] := by
  unfold State.inBuffer
  split
  · rename_i ret readbuf h
    exact absurd h (hplace ret readbuf)
  · rfl

private theorem getElem?_setBash (hb : s.bashes[i]? = some b) (j : Nat) :
    (s.setBash i b').bashes[j]? = if i = j then some b' else s.bashes[j]? := by
  obtain ⟨hi, -⟩ := List.getElem?_eq_some_iff.1 hb
  rw [State.setBash, List.getElem?_set, if_pos hi]

/-- A step of a bash that reads nothing. -/
theorem Accounted.setBash (h : Accounted s) (hb : s.bashes[i]? = some b) (htaken : b'.taken = b.taken) :
    Accounted (s.setBash i b') where
  taken j c hc := by
    rw [getElem?_setBash hb] at hc
    split at hc
    · rename_i hij
      cases hc
      rw [htaken]
      exact h.taken j b (hij ▸ hb)
    · exact h.taken j c hc
  sent e he := by
    rw [State.setBash, List.length_set]
    exact h.sent e he

/-- A step that changes neither the ptys nor what has been sent. -/
theorem Accounted.of_place (h : Accounted s) (hbashes : t.bashes = s.bashes) (hsent : t.sent = s.sent)
    (hs : ∀ i, s.inBuffer i = []) (ht : ∀ i, t.inBuffer i = []) : Accounted t where
  taken i b hb := by
    rw [hbashes] at hb
    rw [ht, State.passed, hsent, ← h.taken i b hb, hs]
    rfl
  sent e he := by
    rw [hsent] at he
    rw [hbashes]
    exact h.sent e he

/-- Nothing has been read from the pty of a bash that has not been started. -/
private theorem Accounted.passed_length (h : Accounted s) : s.passed s.bashes.length = [] := by
  have hfilter : s.sent.filter (·.fd = s.bashes.length) = [] := by
    rw [List.filter_eq_nil_iff]
    intro e he
    have hlt := h.sent e he
    simp only [decide_eq_true_eq]
    omega
  rw [State.passed, hfilter, List.flatMap_nil]

/-- A bash is started while nothing is in the buffer, whatever becomes of `*fd` and of `bash_work`. -/
theorem Accounted.fork (h : Accounted s) (hidle : s.place = .idle) (bashWork : Bool) (fd : Option Nat) :
    Accounted { s with bashWork := bashWork, fd := fd, bashes := s.bashes ++ [.start] } where
  taken i b hb := by
    rw [inBuffer_of_place (by simp [hidle]), List.append_nil]
    simp only [List.getElem?_append] at hb
    split at hb
    · have htaken := h.taken i b hb
      rwa [inBuffer_of_place (by simp [hidle]), List.append_nil] at htaken
    · have hstart : b = .start := List.mem_singleton.1 (List.mem_of_getElem? hb)
      obtain ⟨hi, -⟩ := List.getElem?_eq_some_iff.1 hb
      rw [List.length_singleton] at hi
      have hlast : i = s.bashes.length := by omega
      rw [hlast, hstart]
      exact h.passed_length
  sent e he := by
    have hlt := h.sent e he
    simp only [List.length_append]
    omega

private theorem accounted_execution {ok : Bool} {childBuf : List CChar} (h : Accounted s) (hidle : s.place = .idle) :
    Accounted (s.execution ok childBuf) := by
  have hs : ∀ i, s.inBuffer i = [] := fun i => inBuffer_of_place (by simp [hidle])
  unfold State.execution
  split
  · exact h.of_place rfl rfl hs fun i => inBuffer_of_place (by cases ok <;> simp)
  · exact h.of_place rfl rfl hs fun i => inBuffer_of_place (by simp)
  · cases ok with
    | false => exact h.of_place rfl rfl hs fun i => inBuffer_of_place (by simp [State.shell])
    | true => exact h.fork hidle true (some s.bashes.length)
  · exact h.of_place rfl rfl hs fun i => inBuffer_of_place (by cases ok <;> simp [hidle])

/-- What is read moves from the pty into the buffer. -/
private theorem accounted_read {n : Nat} (h : Accounted s) (hfd : s.fd = some i) (hb : s.bashes[i]? = some b)
    (hplace : s.place = .read) (hle : n ≤ b.unread.length) :
    Accounted { s.setBash i (b.take n) with place := .sendInfo n (padded bufSz (b.unread.take n)) } where
  taken j c hc := by
    have hbuf : (padded bufSz (b.unread.take n)).take n = b.unread.take n := by
      rw [padded, List.take_append_of_le_length (by rw [List.length_take]; omega), List.take_take, Nat.min_self]
    have hempty : ∀ j, s.inBuffer j = [] := fun j => inBuffer_of_place (by simp [hplace])
    rw [getElem?_setBash hb] at hc
    split at hc
    · rename_i hij
      subst hij
      cases hc
      have htaken := h.taken i b hb
      rw [hempty, List.append_nil] at htaken
      show s.passed i ++ (if s.fd = some i then _ else []) = b.taken ++ b.unread.take n
      rw [if_pos hfd, hbuf, htaken]
    · rename_i hij
      have htaken := h.taken j c hc
      rw [hempty] at htaken
      show s.passed j ++ (if s.fd = some j then _ else []) = c.taken
      rw [if_neg fun hj => hij (Option.some.inj (hfd.symm.trans hj)), htaken]
  sent e he := by
    show e.fd < (s.bashes.set i _).length
    rw [List.length_set]
    exact h.sent e he

/-- What is in the buffer is passed to `send_info`. -/
private theorem accounted_sendInfo {ret : Nat} {readbuf : List CChar} {ok : Bool} (h : Accounted s)
    (hfd : s.fd = some i) (hb : s.bashes[i]? = some b) (hplace : s.place = .sendInfo ret readbuf) :
    Accounted { s with sent := s.sent ++ [⟨i, ret, readbuf⟩], place := if ok then .poll else .returned (-1) } where
  taken j c hc := by
    have htaken := h.taken j c hc
    rw [inBuffer_of_place (by cases ok <;> simp), List.append_nil]
    simp only [State.inBuffer, hplace] at htaken
    by_cases hij : i = j
    · subst hij
      rw [if_pos hfd] at htaken
      simpa [State.passed, List.filter_append] using htaken
    · rw [if_neg fun hj => hij (Option.some.inj (hfd.symm.trans hj))] at htaken
      simpa [State.passed, List.filter_append, hij] using htaken
  sent e he := by
    obtain ⟨hi, -⟩ := List.getElem?_eq_some_iff.1 hb
    rw [List.mem_append, List.mem_singleton] at he
    rcases he with he | rfl
    · exact h.sent e he
    · exact hi

private theorem fd_of_current (hb : s.current = some b) : ∃ i, s.fd = some i ∧ s.bashes[i]? = some b :=
  Option.bind_eq_some_iff.1 hb

theorem accounted_step (h : Accounted s) (hs : s.step a = some t) : Accounted t := by
  have hmoves := moves_of_step hs
  clear hs
  cases hmoves with
  | command hidle => exact accounted_execution h hidle
  | nothing hb hplace | pollin hb hplace | pollhup hb hplace | readError hplace =>
    exact h.of_place rfl rfl (fun i => inBuffer_of_place (by simp [hplace])) fun i => inBuffer_of_place (by simp)
  | read hfd hb hplace hn hle => exact accounted_read h hfd hb hplace hle
  | sendInfo hfd hb hplace => exact accounted_sendInfo h hfd hb hplace
  | @ret r hplace =>
    refine h.of_place rfl rfl (fun i => inBuffer_of_place (by simp [hplace])) fun i => inBuffer_of_place ?_
    by_cases hr : r < 0 <;> simp [hr]
  | write hb | close hb => exact h.setBash hb rfl
  | @exit i b hb =>
    have ht : Accounted (s.setBash i { b with running := false }) := h.setBash hb rfl
    exact ⟨ht.taken, ht.sent⟩

private theorem hungUp_of_place (h : t.place ≠ .returned 1) : HungUp t := fun hplace => absurd hplace h

/-- A pty stays closed. -/
theorem HungUp.setBash (h : HungUp s) (hb : s.bashes[i]? = some b) (hclosed : b.closed = true → b'.closed = true) :
    HungUp (s.setBash i b') := by
  intro hplace
  obtain ⟨j, c, hfd, hc, hcl⟩ := h hplace
  refine ⟨j, if i = j then b' else c, hfd, ?_, ?_⟩
  · rw [getElem?_setBash hb, hc]
    split <;> rfl
  · split
    · rename_i hij
      subst hij
      obtain rfl := Option.some.inj (hb.symm.trans hc)
      exact hclosed hcl
    · exact hcl

private theorem hungUp_step (h : HungUp s) (hs : s.step a = some t) : HungUp t := by
  have hmoves := moves_of_step hs
  clear hs
  cases hmoves with
  | @command childBuf ok hidle =>
    apply hungUp_of_place
    unfold State.execution State.shell
    split <;> cases ok <;> simp [hidle]
  | nothing | pollin | readError | read => exact hungUp_of_place (by simp)
  | @sendInfo fd b ret readbuf ok => exact hungUp_of_place (by cases ok <;> simp)
  | @ret r hplace => exact hungUp_of_place (by by_cases hr : r < 0 <;> simp [hr])
  | pollhup hb hplace hclosed =>
    obtain ⟨i, hfd, hbi⟩ := fd_of_current hb
    exact fun _ => ⟨i, _, hfd, hbi, hclosed⟩
  | write hb hopen =>
    refine h.setBash hb fun hclosed => ?_
    rw [hopen] at hclosed
    cases hclosed
  | close hb => exact h.setBash hb fun _ => rfl
  | @exit i b hb =>
    have ht : HungUp (s.setBash i { b with running := false }) := h.setBash hb id
    exact ht

/-- A step of a bash that writes nothing to a closed pty. -/
private theorem delivered_setBash (h : HungUp s) (hd : Delivered s) (hb : s.bashes[i]? = some b)
    (hwritten : b.closed = true → b'.written = b.written) : Delivered (s.setBash i b') := by
  intro hplace
  obtain ⟨j, c, hfd, hc, hpassed⟩ := hd hplace
  obtain ⟨j', c', hfd', hc', hclosed⟩ := h hplace
  obtain rfl : j = j' := Option.some.inj (hfd.symm.trans hfd')
  obtain rfl : c = c' := Option.some.inj (hc.symm.trans hc')
  refine ⟨j, if i = j then b' else c, hfd, ?_, ?_⟩
  · rw [getElem?_setBash hb, hc]
    split <;> rfl
  · split
    · rename_i hij
      subst hij
      obtain rfl := Option.some.inj (hb.symm.trans hc)
      rw [hwritten hclosed]
      exact hpassed
    · exact hpassed

private theorem delivered_of_place (h : t.place ≠ .returned 1) : Delivered t := fun hplace => absurd hplace h

/-- `read_bash` returns 1 with everything passed on if and only if it finds nothing in the pty when it finds it
closed. -/
theorem delivered_iff (h : Accounted s) (hhung : HungUp s) (hd : Delivered s) (hs : s.step a = some t) :
    Delivered t ↔ DrainsFirst s a := by
  have hmoves := moves_of_step hs
  clear hs
  cases hmoves with
  | @command childBuf ok hidle =>
    refine iff_of_true (delivered_of_place ?_) trivial
    unfold State.execution State.shell
    split <;> cases ok <;> simp [hidle]
  | nothing hb hplace hopen | pollin hb hplace hopen =>
    exact iff_of_true (delivered_of_place (by simp)) (forall_closed_of_open hb hopen)
  | @pollhup b hb hplace hclosed =>
    obtain ⟨i, hfd, hbi⟩ := fd_of_current hb
    have hwritten : b.written = s.passed i ++ b.unread := by
      rw [h.written_eq hbi, inBuffer_of_place (by simp [hplace]), List.append_nil]
    constructor
    · intro ht b' hb' _
      obtain rfl := Option.some.inj (hb.symm.trans hb')
      obtain ⟨j, c, hfd', hc, hpassed⟩ := ht rfl
      obtain rfl : i = j := Option.some.inj (hfd.symm.trans hfd')
      obtain rfl : b = c := Option.some.inj (hbi.symm.trans hc)
      change s.passed i = b.written at hpassed
      rw [hwritten] at hpassed
      exact List.append_right_eq_self.1 hpassed.symm
    · intro hdrain _
      have hempty : b.unread = [] := hdrain b hb hclosed
      rw [hempty, List.append_nil] at hwritten
      exact ⟨i, b, hfd, hbi, hwritten.symm⟩
  | read hfd hb hplace hn hle => exact iff_of_true (delivered_of_place (by simp)) trivial
  | readError hplace => exact iff_of_true (delivered_of_place (by simp)) trivial
  | @sendInfo fd b ret readbuf ok hfd hb hplace =>
    exact iff_of_true (delivered_of_place (by cases ok <;> simp)) trivial
  | @ret r hplace => exact iff_of_true (delivered_of_place (by by_cases hr : r < 0 <;> simp [hr])) trivial
  | @write i b data hb hopen =>
    refine iff_of_true (delivered_setBash hhung hd hb fun hclosed => ?_) trivial
    rw [hopen] at hclosed
    cases hclosed
  | close hb => exact iff_of_true (delivered_setBash hhung hd hb fun _ => rfl) trivial
  | @exit i b hb =>
    have ht : Delivered (s.setBash i { b with running := false }) := delivered_setBash hhung hd hb fun _ => rfl
    exact iff_of_true ht trivial

end Steps

/-- In every run the pieces that have been passed to `send_info` are, in order and once each, the front of what the bash
has written. -/
theorem passed_prefix {as : List Action} {s : State} (hrun : run State.step .start as = some s) {i : Nat} {b : Bash}
    (hb : s.bashes[i]? = some b) : s.passed i <+: b.written := by
  have h : Accounted s := run_invariant (fun _ _ _ h hs => accounted_step h hs) accounted_start hrun
  rw [h.written_eq hb, List.append_assoc]
  exact List.prefix_append _ _

/-- In a run, `read_bash` always returns 1 with everything passed to `send_info` if and only if whenever it finds the
pty closed it has read all of its output. -/
theorem read_bash_delivers_iff {as : List Action} {u : State} (hrun : run State.step .start as = some u) :
    (∀ pre t, pre <+: as → run State.step .start pre = some t → Delivered t) ↔
      AllSteps State.step DrainsFirst .start as := by
  have hstart : (Accounted .start ∧ HungUp .start) ∧ Delivered .start :=
    ⟨⟨accounted_start, hungUp_of_place (by simp [State.start])⟩, delivered_of_place (by simp [State.start])⟩
  have hkeeps : ∀ s a t, Accounted s ∧ HungUp s → s.step a = some t → Accounted t ∧ HungUp t :=
    fun s a t h hs => ⟨accounted_step h.1 hs, hungUp_step h.2 hs⟩
  have hstep : ∀ s a t, (Accounted s ∧ HungUp s) ∧ Delivered s → True → s.step a = some t →
      ((Accounted t ∧ HungUp t) ∧ Delivered t ↔ DrainsFirst s a) := by
    intro s a t ⟨h, hd⟩ _ hs
    rw [and_iff_right (hkeeps s a t h hs)]
    exact delivered_iff h.1 h.2 hd hs
  rw [← run_keeps_iff hstep hstart (fun _ _ => trivial) hrun]
  constructor
  · intro h pre t hpre hpre_run
    exact ⟨run_invariant hkeeps hstart.1 hpre_run, h pre t hpre hpre_run⟩
  · intro h pre t hpre hpre_run
    exact (h pre t hpre hpre_run).2

/-- A bash writes, `read_bash` reads all of it, and the bash closes the pty. -/
theorem read_bash_delivers_iff_line :
    (∀ pre t, pre <+: [.command shellCmd true, .write 0 [chr 'a'], .command [] true, .poll, .read (some 1),
        .sendInfo true, .close 0, .poll] → run State.step .start pre = some t → Delivered t) ↔
      AllSteps State.step DrainsFirst .start [.command shellCmd true, .write 0 [chr 'a'], .command [] true, .poll,
        .read (some 1), .sendInfo true, .close 0, .poll] :=
  read_bash_delivers_iff (u := ⟨false, some 0, [⟨true, true, [chr 'a'], []⟩], .returned 1,
    [⟨0, 1, padded bufSz [chr 'a']⟩]⟩) rfl

/-- The bash writes and closes the pty before `read_bash` looks: what it has written is lost. -/
theorem read_bash_drops :
    ∃ t, run State.step .start [.command shellCmd true, .command [] true, .write 0 [chr 'a'], .close 0, .poll] =
      some t ∧ t.place = .returned 1 ∧ ¬ Delivered t := by
  refine ⟨⟨false, some 0, [⟨true, true, [], [chr 'a']⟩], .returned 1, []⟩, by decide, rfl, fun h => ?_⟩
  obtain ⟨i, b, hfd, hb, hpassed⟩ := h rfl
  obtain rfl : 0 = i := Option.some.inj hfd
  obtain rfl := Option.some.inj hb
  exact absurd hpassed (by decide)

end UnixTasks.Udp.Shell
