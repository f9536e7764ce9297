import UnixTasks.Trans.Machine

/-!
# The receiver and the sender it has accepted

Between these two everything goes in turn: exactly one of them can move on, and the other waits for a signal that is
pending, is being handled, or has set the flag.  A link says whose turn it is and where the signal is; what other
senders do to the receiver (SIGCHLD and its handler) does not touch it.

* (`TermAt`, `UsrAt`, `AckAt`) where the signals of one payload are;
* (`Link`) the states of the two processes, turn by turn;
* (`link_main`, `link_frame`, `link_deliver`, `link_send`, `link_deliverSend`) every step of either keeps the link.
-/

namespace UnixTasks.Trans

variable {P : Type}

/-- What the accepted sender has to do with in the receiver: its variables, and the signals and the handlers other than
SIGCHLD. -/
structure View (P : Type) where
  pc : RecvPc
  flag : Bool
  i : Bool
  mem : List CChar
  sigs : List (Sig P)
  handlers : List (Frame P)
  consumed : List (List CChar × Bool)

def Receiver.view (r : Receiver P) : View P :=
  ⟨r.pc, r.flag, r.i, r.mem, r.pending.filter (fun s => s.no ≠ .chld), r.frames.filter (fun f => f.no ≠ .chld),
    r.consumed⟩

/-- Where the SIGTERM that announces a short payload is, and what it has done to `i`; there is none if the payload is
not short. -/
inductive TermAt : Bool → Bool → List (Sig P) → List (Frame P) → Prop
  | none : TermAt false true [] []
  | pending : TermAt true true [.term] []
  | handler : TermAt true true [] [.stop]
  | done : TermAt true false [] []

/-- Where the SIGUSR1 with the payload `val` is, and what it has done to `flag` and `mem`. -/
inductive UsrAt (val : List CChar) : Bool → List CChar → List (Sig P) → List (Frame P) → Prop
  | pending (mem : List CChar) : UsrAt val false mem [.usr1 val] []
  | copy (mem : List CChar) : UsrAt val false mem [] [.copy val]
  | setFlag : UsrAt val false val [] [.setFlag]
  | done : UsrAt val true val [] []

/-- Where the SIGUSR1 that answers a payload is: the sender's `flag`, `handler` and pending signals. -/
inductive AckAt : Bool → Bool → List SendSig → Prop
  | pending : AckAt false false [.usr1]
  | handler : AckAt false true []
  | done : AckAt true false []

/-- The sender has cleared its flag and no signal is on its way to it. -/
structure Waits (q : Sender) : Prop where
  flag : q.flag = false
  handler : q.handler = false
  pending : q.pending = []

/-- The payload that the sender has queued last was short. -/
def Sender.short (q : Sender) : Bool := decide (q.ret < ptrSize)

/-- The sender is in a loop that waits for the receiver, and will go on to read. -/
def MoreAt (q : Sender) : Prop := q.pc = .spin0 ∨ (q.pc = .spin ∧ q.ret = ptrSize)

/-- The turns of a transfer. -/
inductive Link (v : View P) (q : Sender) : Prop
  /-- The receiver is about to ask for a payload. -/
  | ready (hpc : v.pc = .ignition ∨ v.pc = .clear ∨ (v.pc = .ack ∧ v.flag = false)) (hsigs : v.sigs = [])
      (hhandlers : v.handlers = []) (hi : v.i = true) (hq : Waits q) (hat : MoreAt q) (heq : q.queued = v.consumed)
  /-- The receiver has asked. -/
  | asked (hpc : v.pc = .spin) (hflag : v.flag = false) (hsigs : v.sigs = []) (hhandlers : v.handlers = [])
      (hi : v.i = true) (hack : AckAt q.flag q.handler q.pending) (hat : MoreAt q) (heq : q.queued = v.consumed)
  /-- The sender reads its file. -/
  | reading (hpc : v.pc = .spin) (hflag : v.flag = false) (hsigs : v.sigs = []) (hhandlers : v.handlers = [])
      (hi : v.i = true) (hhandler : q.handler = false) (hpending : q.pending = [])
      (hat : q.pc = .read ∨ (q.pc = .clear ∧ q.ret ≤ ptrSize)) (heq : q.queued = v.consumed)
  /-- The sender has read, and if the payload is short announces it. -/
  | sending (hpc : v.pc = .spin) (hflag : v.flag = false) (hq : Waits q) (announced : Bool)
      (hterm : TermAt announced v.i v.sigs v.handlers)
      (hat : (q.pc = .term ∧ q.ret < ptrSize ∧ announced = false) ∨ (q.pc = .nul ∧ q.ret < ptrSize ∧ announced = true) ∨
        (q.pc = .queue ∧ q.ret ≤ ptrSize ∧ announced = q.short))
      (heq : q.queued = v.consumed)
  /-- The payload is on its way. -/
  | sent (hpc : v.pc = .spin) (hq : Waits q) (hat : q.pc = .spin) (hret : q.ret ≤ ptrSize) {ts us : List (Sig P)}
      {tf uf : List (Frame P)} {val : List CChar} (hterm : TermAt q.short v.i ts tf)
      (husr : UsrAt val v.flag v.mem us uf) (hsigs : v.sigs = ts ++ us) (hhandlers : v.handlers = uf ++ tf)
      (horder : ts ≠ [] → us ≠ []) (heq : q.queued = v.consumed ++ [(val, q.short)])
  /-- The receiver has left its waiting loop. -/
  | taken (hpc : v.pc = .test ∨ (v.pc = .write ∧ q.short = false) ∨ (v.pc = .writeLast ∧ q.short = true))
      (hsigs : v.sigs = []) (hhandlers : v.handlers = []) (hi : v.i = !q.short) (hq : Waits q) (hat : q.pc = .spin)
      (hret : q.ret ≤ ptrSize) (heq : q.queued = v.consumed ++ [(v.mem, q.short)])
  /-- The receiver has taken the last payload. -/
  | last (hpc : v.pc = .ackLast) (hsigs : v.sigs = []) (hhandlers : v.handlers = []) (hq : Waits q) (hat : q.pc = .spin)
      (hret : q.ret < ptrSize) (heq : q.queued = v.consumed)
  /-- The receiver has finished. -/
  | finished (hpc : v.pc = .done)
      (hat : (q.pc = .spin ∧ q.ret < ptrSize ∧ AckAt q.flag q.handler q.pending) ∨
        ((q.pc = .termLast ∨ q.pc = .done) ∧ q.handler = false ∧ q.pending = []))
      (heq : q.queued = v.consumed)

/-- When the SIGTERM has been handled, `i` tells whether there was one. -/
private theorem TermAt.settled {short i : Bool} (h : TermAt (P := P) short i [] []) : i = !short := by
  cases h <;> rfl

theorem TermAt.handlers {short i : Bool} {ts : List (Sig P)} {tf : List (Frame P)} (h : TermAt short i ts tf) :
    tf = [] ∨ tf = [.stop] := by
  cases h <;> simp

/-- When the flag is set, the payload is in `mem` and its handler has returned. -/
private theorem UsrAt.settled {val mem : List CChar} {us : List (Sig P)} {uf : List (Frame P)}
    (h : UsrAt val true mem us uf) :
    mem = val ∧ us = [] ∧ uf = [] := by
  cases h
  exact ⟨rfl, rfl, rfl⟩

/-! ### Signals of other senders -/

theorem view_frameStep_of_chld [DecidableEq P] {r : Receiver P} {f : Frame P} {rest : List (Frame P)}
    (hf : r.frames = f :: rest) (hno : f.no = .chld) : (r.frameStep f rest).1.view = r.view := by
  cases f with
  | test p => by_cases hp : r.pid ≠ none ∧ r.pid ≠ some p <;> simp [Receiver.frameStep, Receiver.view, hf, hp, Frame.no]
  | kill p => simp [Receiver.frameStep, Receiver.view, hf, Frame.no]
  | ignite p => simp [Receiver.frameStep, Receiver.view, hf, Frame.no]
  | setPid p => simp [Receiver.frameStep, Receiver.view, hf, Frame.no]
  | _ => cases hno

theorem view_signal_chld (r : Receiver P) (merge : Bool) (p : P) :
    (r.signal merge (some (.chld p))).view = r.view := by
  unfold Receiver.signal enqueue
  simp only
  split
  · rfl
  · simp [Receiver.view, Sig.no]

/-- A signal with a number that is not pending is not merged. -/
private theorem enqueue_of_notMem {σ ν : Type} [DecidableEq ν] {no : σ → ν} {sig : σ} {pending : List σ}
    (h : ∀ s ∈ pending, no s ≠ no sig) (merge : Bool) : enqueue no merge sig pending = pending ++ [sig] := by
  have hany : pending.any (fun s => no s = no sig) = false := by
    rw [List.any_eq_false]
    intro s hs
    simpa using h s hs
  simp [enqueue, hany]

/-- A signal of the accepted sender joins those that are pending. -/
private theorem view_signal {r : Receiver P} {sig : Sig P} (hno : sig.no ≠ .chld) (h : ∀ s ∈ r.view.sigs, s.no ≠ sig.no)
    (merge : Bool) : (r.signal merge (some sig)).view = { r.view with sigs := r.view.sigs ++ [sig] } := by
  have hpending : ∀ s ∈ r.pending, s.no ≠ sig.no := by
    intro s hs heq
    exact h s (by simp [Receiver.view, hs, heq, hno]) heq
  simp [Receiver.signal, enqueue_of_notMem hpending, Receiver.view, hno]

/-! ### Steps of the receiver -/

section Receiver

variable {r r' : Receiver P} {q : Sender} {sig : Option (P × SendSig)}

private theorem signal_of_waits (hq : Waits q) (merge : Bool) :
    q.signal merge .usr1 = { q with pending := [.usr1] } := by
  simp [Sender.signal, hq.pending, enqueue]

private theorem ret_of_not_short (hret : q.ret ≤ ptrSize) (hs : q.short = false) : q.ret = ptrSize := by
  have hge : ¬ q.ret < ptrSize := of_decide_eq_false hs
  omega

/-- A statement of `main`: it sends nothing, or SIGUSR1 to the accepted sender. -/
theorem link_main (h : Link r.view q) (hframes : r.frames = []) (hstep : r.mainStep = some (r', sig)) :
    (sig = none ∧ Link r'.view q) ∨
      (sig = r.pid.map (·, .usr1) ∧ ∀ merge, Link r'.view (q.signal merge .usr1)) := by
  have hnil : r.view.handlers = [] := by simp [Receiver.view, hframes]
  cases h with
  | ready hpc hsigs hh hi hq hat heq =>
    rcases hpc with hpc | hpc | ⟨hpc, hflag⟩ <;>
      (replace hpc : r.pc = _ := hpc
       simp only [Receiver.mainStep, hpc, Option.some.injEq, Prod.mk.injEq] at hstep
       obtain ⟨rfl, rfl⟩ := hstep)
    · left
      refine ⟨rfl, ?_⟩
      split
      · exact .ready (.inr (.inl rfl)) hsigs hh hi hq hat heq
      · exact .ready (.inl hpc) hsigs hh hi hq hat heq
    · exact .inl ⟨rfl, .ready (.inr (.inr ⟨rfl, rfl⟩)) hsigs hh hi hq hat heq⟩
    · right
      refine ⟨rfl, fun merge => ?_⟩
      rw [signal_of_waits hq]
      refine .asked rfl hflag hsigs hh hi ?_ hat heq
      simp only [hq.flag, hq.handler]
      exact .pending
  | asked hpc hflag hsigs hh hi hack hat heq =>
    replace hpc : r.pc = _ := hpc
    replace hflag : r.flag = _ := hflag
    simp only [Receiver.mainStep, hpc, hflag, Bool.false_eq_true, if_false, Option.some.injEq, Prod.mk.injEq] at hstep
    obtain ⟨rfl, rfl⟩ := hstep
    exact .inl ⟨rfl, .asked hpc hflag hsigs hh hi hack hat heq⟩
  | reading hpc hflag hsigs hh hi hhandler hpending hat heq =>
    replace hpc : r.pc = _ := hpc
    replace hflag : r.flag = _ := hflag
    simp only [Receiver.mainStep, hpc, hflag, Bool.false_eq_true, if_false, Option.some.injEq, Prod.mk.injEq] at hstep
    obtain ⟨rfl, rfl⟩ := hstep
    exact .inl ⟨rfl, .reading hpc hflag hsigs hh hi hhandler hpending hat heq⟩
  | sending hpc hflag hq announced hterm hat heq =>
    replace hpc : r.pc = _ := hpc
    replace hflag : r.flag = _ := hflag
    simp only [Receiver.mainStep, hpc, hflag, Bool.false_eq_true, if_false, Option.some.injEq, Prod.mk.injEq] at hstep
    obtain ⟨rfl, rfl⟩ := hstep
    exact .inl ⟨rfl, .sending hpc hflag hq announced hterm hat heq⟩
  | @sent hpc hq hat hret ts us tf uf val hterm husr hsigs hh horder heq =>
    replace hpc : r.pc = _ := hpc
    simp only [Receiver.mainStep, hpc, Option.some.injEq, Prod.mk.injEq] at hstep
    obtain ⟨rfl, rfl⟩ := hstep
    refine .inl ⟨rfl, ?_⟩
    by_cases hflag : r.flag = true
    · -- the flag is set, so no handler runs any more and `i` tells whether the payload is short
      rw [if_pos hflag]
      rw [show r.view.flag = true from hflag] at husr
      obtain ⟨hmem, rfl, rfl⟩ := husr.settled
      have hts : ts = [] := by
        by_contra hne
        exact horder hne rfl
      have htf : tf = [] := by
        rw [hnil] at hh
        exact hh.symm
      subst hts htf
      refine .taken (.inl rfl) hsigs hh hterm.settled hq hat hret ?_
      rw [heq, ← hmem]
      rfl
    · rw [if_neg hflag]
      exact .sent hpc hq hat hret hterm husr hsigs hh horder heq
  | taken hpc hsigs hh hi hq hat hret heq =>
    rcases hpc with hpc | ⟨hpc, hshort⟩ | ⟨hpc, hshort⟩ <;>
      (replace hpc : r.pc = _ := hpc
       simp only [Receiver.mainStep, hpc, Option.some.injEq, Prod.mk.injEq] at hstep
       obtain ⟨rfl, rfl⟩ := hstep)
    · have hpc' : (if r.i then RecvPc.write else .writeLast) = if q.short then .writeLast else .write := by
        rw [show r.i = !q.short from hi]
        cases q.short <;> rfl
      refine .inl ⟨rfl, .taken (.inr ?_) hsigs hh hi hq hat hret heq⟩
      rw [show (Receiver.view { r with pc := if r.i then RecvPc.write else .writeLast }).pc = _ from hpc']
      cases q.short
      · exact .inl ⟨rfl, rfl⟩
      · exact .inr ⟨rfl, rfl⟩
    · refine .inl ⟨rfl, .ready (.inr (.inl rfl)) hsigs hh ?_ hq (.inr ⟨hat, ret_of_not_short hret hshort⟩) ?_⟩
      · rw [hshort] at hi
        exact hi
      · rw [heq, hshort]
        rfl
    · refine .inl ⟨rfl, .last rfl hsigs hh hq hat (of_decide_eq_true hshort) ?_⟩
      rw [heq, hshort]
      rfl
  | last hpc hsigs hh hq hat hret heq =>
    replace hpc : r.pc = _ := hpc
    simp only [Receiver.mainStep, hpc, Option.some.injEq, Prod.mk.injEq] at hstep
    obtain ⟨rfl, rfl⟩ := hstep
    right
    refine ⟨rfl, fun merge => ?_⟩
    rw [signal_of_waits hq]
    refine .finished rfl (.inl ⟨hat, hret, ?_⟩) heq
    simp only [hq.flag, hq.handler]
    exact .pending
  | finished hpc hat heq =>
    replace hpc : r.pc = _ := hpc
    simp only [Receiver.mainStep, hpc] at hstep
    cases hstep

private theorem link_copy {v : View P} {val : List CChar} {tf : List (Frame P)} (h : Link v q)
    (hv : v.handlers = .copy val :: tf) : Link { v with mem := val, handlers := .setFlag :: tf } q := by
  obtain ⟨pc, flag, i, mem, sigs, handlers, consumed⟩ := v
  obtain rfl : handlers = _ := hv
  cases h with
  | ready _ _ hh | asked _ _ _ hh | reading _ _ _ hh | taken _ _ hh | last _ _ hh => cases hh
  | sending _ _ _ _ hterm => cases hterm
  | sent hpc hq hat hret hterm husr hsigs hh horder heq =>
    cases husr with
    | copy =>
      obtain ⟨hval, rfl⟩ := List.cons.inj hh
      cases hval
      exact .sent hpc hq hat hret hterm .setFlag hsigs rfl horder heq
    | setFlag => cases hh
    | pending | done => rcases hterm.handlers with rfl | rfl <;> cases hh
  | finished hpc hat heq => exact .finished hpc hat heq

private theorem link_setFlag {v : View P} {tf : List (Frame P)} (h : Link v q) (hv : v.handlers = .setFlag :: tf) :
    Link { v with flag := true, handlers := tf } q := by
  obtain ⟨pc, flag, i, mem, sigs, handlers, consumed⟩ := v
  obtain rfl : handlers = _ := hv
  cases h with
  | ready _ _ hh | asked _ _ _ hh | reading _ _ _ hh | taken _ _ hh | last _ _ hh => cases hh
  | sending _ _ _ _ hterm => cases hterm
  | sent hpc hq hat hret hterm husr hsigs hh horder heq =>
    cases husr with
    | copy => cases hh
    | setFlag =>
      obtain ⟨-, rfl⟩ := List.cons.inj hh
      exact .sent hpc hq hat hret hterm .done hsigs rfl horder heq
    | pending | done => rcases hterm.handlers with rfl | rfl <;> cases hh
  | finished hpc hat heq => exact .finished hpc hat heq

private theorem link_stop {v : View P} {tf : List (Frame P)} (h : Link v q) (hv : v.handlers = .stop :: tf) :
    Link { v with i := false, handlers := tf } q := by
  obtain ⟨pc, flag, i, mem, sigs, handlers, consumed⟩ := v
  obtain rfl : handlers = _ := hv
  cases h with
  | ready _ _ hh | asked _ _ _ hh | reading _ _ _ hh | taken _ _ hh | last _ _ hh => cases hh
  | sending hpc hflag hq announced hterm hat heq =>
    cases hterm
    exact .sending hpc hflag hq true .done hat heq
  | @sent hpc hq hat hret ts us tf' uf val hterm husr hsigs hh horder heq =>
    -- the handler is the outermost one, so the payload is still pending or its handler has returned
    have huf : uf = [] := by
      cases husr <;> first | rfl | cases hh
    subst huf
    obtain rfl : tf' = .stop :: tf := hh.symm
    generalize hshort : q.short = short at hterm
    cases hterm
    exact .sent hpc hq hat hret (by rw [hshort]; exact .done) husr hsigs rfl horder heq
  | finished hpc hat heq => exact .finished hpc hat heq

/-- A statement of one of the two handlers of the accepted sender's signals. -/
theorem link_frame [DecidableEq P] {f : Frame P} {rest : List (Frame P)} (h : Link r.view q)
    (hframes : r.frames = f :: rest) (hno : f.no ≠ .chld) :
    (r.frameStep f rest).2 = none ∧ Link (r.frameStep f rest).1.view q := by
  have hhandlers : r.view.handlers = f :: rest.filter fun f => f.no ≠ .chld := by simp [Receiver.view, hframes, hno]
  cases f with
  | copy val =>
    refine ⟨rfl, ?_⟩
    have hview := link_copy h hhandlers
    simpa [Receiver.view, Receiver.frameStep, Frame.no] using hview
  | setFlag => exact ⟨rfl, link_setFlag h hhandlers⟩
  | stop => exact ⟨rfl, link_stop h hhandlers⟩
  | _ => exact absurd rfl hno

private theorem link_deliver_term {v : View P} {us : List (Sig P)} (h : Link v q) (hv : v.sigs = .term :: us) :
    Link { v with sigs := us, handlers := .stop :: v.handlers } q := by
  obtain ⟨pc, flag, i, mem, sigs, handlers, consumed⟩ := v
  obtain rfl : sigs = _ := hv
  cases h with
  | ready _ hs | asked _ _ hs | reading _ _ hs | taken _ hs | last _ hs => cases hs
  | sending hpc hflag hq announced hterm hat heq =>
    cases hterm
    exact .sending hpc hflag hq true .handler hat heq
  | @sent hpc hq hat hret ts us' tf uf val hterm husr hsigs hh horder heq =>
    generalize hs : q.short = short at hterm
    cases hterm with
    | pending =>
      obtain rfl : us = us' := (List.cons.inj hsigs).2
      have huf : uf = [] := by
        cases husr <;> first | rfl | exact absurd rfl (horder (by simp))
      subst huf
      obtain rfl : handlers = [] := hh
      have hterm : TermAt (P := P) q.short true [] [.stop] := by
        rw [hs]
        exact .handler
      exact .sent hpc hq hat hret hterm husr rfl rfl (fun h => absurd rfl h) heq
    | none | handler | done => cases husr <;> cases hsigs
  | finished hpc hat heq => exact .finished hpc hat heq

private theorem link_deliver_usr1 {v : View P} {val : List CChar} {us : List (Sig P)} (h : Link v q)
    (hv : v.sigs = .usr1 val :: us) : Link { v with sigs := us, handlers := .copy val :: v.handlers } q := by
  obtain ⟨pc, flag, i, mem, sigs, handlers, consumed⟩ := v
  obtain rfl : sigs = _ := hv
  cases h with
  | ready _ hs | asked _ _ hs | reading _ _ hs | taken _ hs | last _ hs => cases hs
  | sending _ _ _ _ hterm => cases hterm
  | @sent hpc hq hat hret ts us' tf uf val' hterm husr hsigs hh horder heq =>
    -- the SIGTERM has been sent before, so it is not pending any more
    have hts : ts = [] := by
      generalize q.short = short at hterm
      cases hterm <;> first | rfl | cases hsigs
    subst hts
    cases husr with
    | pending =>
      obtain ⟨hval, rfl⟩ := List.cons.inj hsigs
      cases hval
      obtain rfl : handlers = tf := hh
      exact .sent hpc hq hat hret hterm (.copy mem) rfl rfl (fun h => absurd rfl h) heq
    | copy | setFlag | done => cases hsigs
  | finished hpc hat heq => exact .finished hpc hat heq

/-- The first pending signal of the receiver starts its handler. -/
theorem link_deliver (h : Link r.view q) (hstep : r.deliver = some r') : Link r'.view q := by
  unfold Receiver.deliver at hstep
  split at hstep
  · cases hstep
  · rename_i sig rest hpending
    split at hstep
    · cases hstep
    · obtain rfl := Option.some.inj hstep
      cases sig with
      | chld p => simpa [Receiver.view, hpending, Sig.no, Sig.handler, Frame.no] using h
      | term =>
        have hsigs : r.view.sigs = .term :: rest.filter fun s => s.no ≠ .chld := by
          simp [Receiver.view, hpending, Sig.no]
        exact link_deliver_term h hsigs
      | usr1 val =>
        have hsigs : r.view.sigs = .usr1 val :: rest.filter fun s => s.no ≠ .chld := by
          simp [Receiver.view, hpending, Sig.no]
        exact link_deliver_usr1 h hsigs

end Receiver

/-! ### Steps of the sender -/

section Sender

variable {r : Receiver P} {q q' : Sender} {sig : Option (Sig P)} {p : P}

private theorem step_of_waits (hq : Waits q) (hat : q.pc = .spin0 ∨ q.pc = .spin) : q.step p = some (q, none) := by
  rcases hat with hat | hat <;> simp [Sender.step, hq.handler, hq.flag, hat]

/-- In its waiting loop the sender waits for the acknowledgement to set the flag. -/
private theorem step_of_ackAt (hack : AckAt q.flag q.handler q.pending) (hat : q.pc = .spin0 ∨ q.pc = .spin)
    (hstep : q.step p = some (q', sig)) :
    sig = none ∧ ((q'.pc = q.pc ∧ q'.ret = q.ret ∧ q'.queued = q.queued ∧ AckAt q'.flag q'.handler q'.pending) ∨
      (q' = { q with pc := if q.pc = .spin ∧ q.ret ≠ ptrSize then .termLast else .read } ∧ q.handler = false ∧
        q.pending = [])) := by
  obtain ⟨flag, pc, rest, buf, ret, handler, pending, queued⟩ := q
  cases hack with
  | pending =>
    rcases hat with rfl | rfl <;>
      (obtain ⟨rfl, rfl⟩ := Prod.mk.inj (Option.some.inj hstep.symm)
       exact ⟨rfl, .inl ⟨rfl, rfl, rfl, .pending⟩⟩)
  | handler =>
    rcases hat with rfl | rfl <;>
      (obtain ⟨rfl, rfl⟩ := Prod.mk.inj (Option.some.inj hstep.symm)
       exact ⟨rfl, .inl ⟨rfl, rfl, rfl, .done⟩⟩)
  | done =>
    rcases hat with rfl | rfl
    · obtain ⟨rfl, rfl⟩ := Prod.mk.inj (Option.some.inj hstep.symm)
      exact ⟨rfl, .inr ⟨by simp, rfl, rfl⟩⟩
    · obtain ⟨rfl, rfl⟩ := Prod.mk.inj (Option.some.inj hstep.symm)
      refine ⟨rfl, .inr ⟨?_, rfl, rfl⟩⟩
      by_cases hret : ret = ptrSize <;> simp [hret]

/-- A statement of the accepted sender. -/
theorem link_send (h : Link r.view q) (hstep : q.step p = some (q', sig)) (merge : Bool) :
    (∀ s ∈ sig, s.no ≠ .chld) ∧ Link (r.signal merge sig).view q' := by
  cases h with
  | ready hpc hsigs hh hi hq hat heq =>
    rw [step_of_waits hq (hat.imp_right And.left)] at hstep
    cases hstep
    exact ⟨by simp, .ready hpc hsigs hh hi hq hat heq⟩
  | asked hpc hflag hsigs hh hi hack hat heq =>
    obtain ⟨rfl, hcases⟩ := step_of_ackAt hack (hat.imp_right And.left) hstep
    refine ⟨by simp, ?_⟩
    rcases hcases with ⟨hpc', hret', hqueued', hack'⟩ | ⟨rfl, hhandler, hpending⟩
    · exact .asked hpc hflag hsigs hh hi hack' (by rw [MoreAt, hpc', hret']; exact hat) (hqueued'.trans heq)
    · have hnext : (if q.pc = .spin ∧ q.ret ≠ ptrSize then SendPc.termLast else .read) = .read := by
        rcases hat with hat | ⟨-, hret⟩
        · rw [if_neg (by simp [hat])]
        · rw [if_neg (by simp [hret])]
      exact .reading hpc hflag hsigs hh hi hhandler hpending (.inl hnext) heq
  | reading hpc hflag hsigs hh hi hhandler hpending hat heq =>
    rcases hat with hat | ⟨hat, hret⟩
    · simp only [Sender.step, hhandler, hat, Bool.false_eq_true, if_false, Option.some.injEq, Prod.mk.injEq] at hstep
      obtain ⟨rfl, rfl⟩ := hstep
      exact ⟨by simp, .reading hpc hflag hsigs hh hi rfl hpending (.inr ⟨rfl, Nat.min_le_left ..⟩) heq⟩
    · simp only [Sender.step, hhandler, hat, Bool.false_eq_true, if_false, Option.some.injEq, Prod.mk.injEq] at hstep
      obtain ⟨rfl, rfl⟩ := hstep
      have hterm : TermAt false r.view.i r.view.sigs r.view.handlers := by
        rw [hi, hsigs, hh]
        exact .none
      refine ⟨by simp, .sending hpc hflag ⟨rfl, rfl, hpending⟩ false hterm ?_ heq⟩
      by_cases hlt : q.ret < ptrSize
      · exact .inl ⟨if_pos hlt, hlt, rfl⟩
      · exact .inr (.inr ⟨if_neg hlt, hret, (decide_eq_false hlt).symm⟩)
  | sending hpc hflag hq announced hterm hat heq =>
    have hhandler := hq.handler
    rcases hat with ⟨hat, hlt, rfl⟩ | ⟨hat, hlt, rfl⟩ | ⟨hat, hret, hann⟩ <;>
      (simp only [Sender.step, hhandler, hat, Bool.false_eq_true, if_false, Option.some.injEq, Prod.mk.injEq] at hstep
       obtain ⟨rfl, rfl⟩ := hstep)
    · have hquiet : r.view.i = true ∧ r.view.sigs = [] ∧ r.view.handlers = [] := by
        generalize r.view.i = i at hterm
        generalize r.view.sigs = ts at hterm
        generalize r.view.handlers = tf at hterm
        cases hterm
        exact ⟨rfl, rfl, rfl⟩
      obtain ⟨hi, hsigs, hh⟩ := hquiet
      refine ⟨by simp [Sig.no], ?_⟩
      rw [view_signal (by simp [Sig.no]) (by simp [hsigs])]
      refine .sending hpc hflag ⟨hq.flag, rfl, hq.pending⟩ true ?_ (.inr (.inl ⟨rfl, hlt, rfl⟩)) heq
      simp only [hi, hsigs, hh]
      exact .pending
    · refine ⟨by simp, .sending hpc hflag ⟨hq.flag, rfl, hq.pending⟩ true hterm ?_ heq⟩
      exact .inr (.inr ⟨rfl, Nat.le_of_lt hlt, (decide_eq_true hlt).symm⟩)
    · refine ⟨by simp [Sig.no], ?_⟩
      have hno : ∀ s ∈ r.view.sigs, s.no ≠ (Sig.usr1 q.buf : Sig P).no := by
        generalize r.view.i = i at hterm
        generalize r.view.sigs = ts at hterm
        generalize r.view.handlers = tf at hterm
        cases hterm <;> simp [Sig.no]
      rw [view_signal (by simp [Sig.no]) hno]
      rw [hann] at hterm
      have husr : UsrAt (P := P) q.buf r.view.flag r.view.mem [.usr1 q.buf] [] := by
        rw [hflag]
        exact .pending r.view.mem
      refine .sent hpc ⟨hq.flag, rfl, hq.pending⟩ rfl hret hterm husr rfl rfl (by simp) ?_
      rw [← heq]
      rfl
  | sent hpc hq hat hret hterm husr hsigs hh horder heq =>
    rw [step_of_waits hq (.inr hat)] at hstep
    cases hstep
    exact ⟨by simp, .sent hpc hq hat hret hterm husr hsigs hh horder heq⟩
  | taken hpc hsigs hh hi hq hat hret heq =>
    rw [step_of_waits hq (.inr hat)] at hstep
    cases hstep
    exact ⟨by simp, .taken hpc hsigs hh hi hq hat hret heq⟩
  | last hpc hsigs hh hq hat hret heq =>
    rw [step_of_waits hq (.inr hat)] at hstep
    cases hstep
    exact ⟨by simp, .last hpc hsigs hh hq hat hret heq⟩
  | finished hpc hat heq =>
    rcases hat with ⟨hat, hret, hack⟩ | ⟨hat, hhandler, hpending⟩
    · obtain ⟨rfl, hcases⟩ := step_of_ackAt hack (.inr hat) hstep
      refine ⟨by simp, ?_⟩
      rcases hcases with ⟨hpc', hret', hqueued', hack'⟩ | ⟨rfl, hhandler, hpending⟩
      · exact .finished hpc (.inl ⟨hpc'.trans hat, by omega, hack'⟩) (hqueued'.trans heq)
      · have hnext : (if q.pc = .spin ∧ q.ret ≠ ptrSize then SendPc.termLast else .read) = .termLast :=
          if_pos ⟨hat, by omega⟩
        exact .finished hpc (.inr ⟨.inl hnext, hhandler, hpending⟩) heq
    · rcases hat with hat | hat
      · simp only [Sender.step, hhandler, hat, Bool.false_eq_true, if_false, Option.some.injEq, Prod.mk.injEq] at hstep
        obtain ⟨rfl, rfl⟩ := hstep
        exact ⟨by simp [Sig.no], .finished hpc (.inr ⟨.inr rfl, rfl, hpending⟩) heq⟩
      · simp only [Sender.step, hhandler, hat, Bool.false_eq_true, if_false] at hstep
        cases hstep

/-- The acknowledgement starts the handler. -/
private theorem deliver_of_ackAt (hack : AckAt q.flag q.handler q.pending) (hstep : q.deliver = some q') :
    q'.pc = q.pc ∧ q'.ret = q.ret ∧ q'.queued = q.queued ∧ AckAt q'.flag q'.handler q'.pending := by
  obtain ⟨flag, pc, rest, buf, ret, handler, pending, queued⟩ := q
  cases hack with
  | pending =>
    simp only [Sender.deliver] at hstep
    split at hstep
    · cases hstep
    · obtain rfl := Option.some.inj hstep
      exact ⟨rfl, rfl, rfl, .handler⟩
  | handler | done => cases hstep

private theorem deliver_of_pending (hpending : q.pending = []) : q.deliver = none := by
  simp [Sender.deliver, hpending]

/-- The handler of the accepted sender starts. -/
theorem link_deliverSend {v : View P} (h : Link v q) (hstep : q.deliver = some q') : Link v q' := by
  cases h with
  | asked hpc hflag hsigs hh hi hack hat heq =>
    obtain ⟨hpc', hret', hqueued', hack'⟩ := deliver_of_ackAt hack hstep
    exact .asked hpc hflag hsigs hh hi hack' (by rw [MoreAt, hpc', hret']; exact hat) (hqueued'.trans heq)
  | finished hpc hat heq =>
    rcases hat with ⟨hat, hret, hack⟩ | ⟨-, -, hpending⟩
    · obtain ⟨hpc', hret', hqueued', hack'⟩ := deliver_of_ackAt hack hstep
      exact .finished hpc (.inl ⟨hpc'.trans hat, by omega, hack'⟩) (hqueued'.trans heq)
    · rw [deliver_of_pending hpending] at hstep
      cases hstep
  | reading hpc hflag hsigs hh hi hhandler hpending hat heq =>
    rw [deliver_of_pending hpending] at hstep
    cases hstep
  | ready _ _ _ _ hq | sending _ _ hq | sent _ hq | taken _ _ _ _ hq | last _ _ _ hq =>
    rw [deliver_of_pending hq.pending] at hstep
    cases hstep

end Sender

end UnixTasks.Trans
