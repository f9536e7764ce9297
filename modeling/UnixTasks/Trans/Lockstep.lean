import UnixTasks.Trans.Link

/-!
# One sender, in lockstep with the receiver

The handler `killrest` accepts the first sender whose SIGCHLD it handles and kills every other one.  The accepted
sender and the receiver keep their link; a sender that is not accepted waits for a signal that nobody sends.

* (`AcceptAt`) where `killrest` is, and what it has done to `pid` and `ignition`;
* (`Inv`) the invariant of all processes, kept by every step (`inv_step`);
* (`lockstep`) what is queued is consumed in turn, the processes never both wait, and nobody else queues anything.
-/

namespace UnixTasks.Trans

open ActionSystem

variable {P : Type}

/-- The sender whose SIGCHLD a handler is for. -/
def Frame.pid? : Frame P → Option P
  | .test p | .kill p | .ignite p | .setPid p => some p
  | _ => none

/-- The handlers of SIGCHLD that are running. -/
def Receiver.hellos (r : Receiver P) : List (Frame P) := r.frames.filter (fun f => f.no = .chld)

/-- The SIGCHLD of `p` is pending or is being handled. -/
def Greeted (r : Receiver P) (p : P) : Prop := .chld p ∈ r.pending ∨ ∃ f ∈ r.hellos, f.pid? = some p

/-- The handler of SIGCHLD that is running, and what it has done to `pid` and `ignition`. -/
inductive AcceptAt (pid : Option P) (ignition : Bool) : List (Frame P) → Prop
  | idle (h : ignition = true → pid ≠ none) : AcceptAt pid ignition []
  | test (p : P) (h : ignition = true → pid ≠ none) : AcceptAt pid ignition [.test p]
  | kill (p : P) (hnone : pid ≠ none) (hne : pid ≠ some p) : AcceptAt pid ignition [.kill p]
  | ignite (p : P) (h : ignition = true → pid ≠ none) (hp : pid = none ∨ pid = some p) :
    AcceptAt pid ignition [.ignite p]
  | setPid (p : P) (hp : pid = none ∨ pid = some p) : AcceptAt pid ignition [.setPid p]

/-- A sender that has not been accepted: it has queued nothing, and only SIGKILL is on its way to it. -/
structure Fresh (q : Sender) : Prop where
  queued : q.queued = []
  handler : q.handler = false
  pending : ∀ s ∈ q.pending, s = .kill
  at_start : q.pc = .clear0 ∨ (q.flag = false ∧ (q.pc = .hello ∨ q.pc = .spin0)) ∨ q.pc = .killed

/-- Nobody has been accepted yet. -/
structure Idle (s : State P) : Prop where
  pc : s.recv.view.pc = .ignition
  i : s.recv.view.i = true
  sigs : s.recv.view.sigs = []
  handlers : s.recv.view.handlers = []
  consumed : s.recv.view.consumed = []
  pending (p : P) : (s.send p).pending = []
  greeted (p : P) (h : Greeted s.recv p) : (s.send p).pc = .spin0

/-- The view of the receiver is the same. -/
private theorem Idle.of_view {s s' : State P} (h : Idle s) (hview : s'.recv.view = s.recv.view)
    (hpending : ∀ p, (s'.send p).pending = []) (hgreeted : ∀ p, Greeted s'.recv p → (s'.send p).pc = .spin0) :
    Idle s' := by
  refine ⟨?_, ?_, ?_, ?_, ?_, hpending, hgreeted⟩
  · rw [hview]; exact h.pc
  · rw [hview]; exact h.i
  · rw [hview]; exact h.sigs
  · rw [hview]; exact h.handlers
  · rw [hview]; exact h.consumed

structure Inv (s : State P) : Prop where
  accept : AcceptAt s.recv.pid s.recv.ignition s.recv.hellos
  fresh (p : P) (h : s.recv.pid ≠ some p) : Fresh (s.send p)
  idle (h : s.recv.pid = none) : Idle s
  link (p : P) (h : s.recv.pid = some p) : Link s.recv.view (s.send p)

theorem inv_start (mem : List CChar) (buf file : P → List CChar) : Inv (start mem buf file) where
  accept := .idle (by simp [start])
  fresh p _ := ⟨rfl, rfl, by simp [start], .inl rfl⟩
  idle _ := ⟨rfl, rfl, rfl, rfl, rfl, fun _ => rfl, by simp [start, Greeted, Receiver.hellos]⟩
  link p h := by cases h

/-! ### What a step of the receiver does to `killrest` -/

section Receiver

variable {r r' : Receiver P}

private theorem hellos_cons {f : Frame P} {rest : List (Frame P)} (hframes : r.frames = f :: rest)
    (hno : f.no = .chld) :
    r.hellos = f :: rest.filter (fun f => f.no = .chld) := by
  simp [Receiver.hellos, hframes, hno]

private theorem mainStep_fields {sig : Option (P × SendSig)} (h : r.mainStep = some (r', sig)) :
    r'.pid = r.pid ∧ r'.ignition = r.ignition ∧ r'.frames = r.frames ∧ r'.pending = r.pending := by
  unfold Receiver.mainStep at h
  cases hpc : r.pc <;> rw [hpc] at h <;> simp only [Option.some.injEq, Prod.mk.injEq, reduceCtorEq] at h <;>
    obtain ⟨rfl, -⟩ := h <;> first | exact ⟨rfl, rfl, rfl, rfl⟩ | (split <;> exact ⟨rfl, rfl, rfl, rfl⟩)

/-- The handlers of the other signals leave `killrest` and its variables alone. -/
private theorem frameStep_fields [DecidableEq P] {f : Frame P} {rest : List (Frame P)} (hframes : r.frames = f :: rest)
    (hno : f.no ≠ .chld) :
    (r.frameStep f rest).1.pid = r.pid ∧ (r.frameStep f rest).1.ignition = r.ignition ∧
      (r.frameStep f rest).1.hellos = r.hellos ∧ (r.frameStep f rest).1.pending = r.pending := by
  cases f with
  | copy | setFlag | stop => refine ⟨rfl, rfl, ?_, rfl⟩; simp [Receiver.hellos, Receiver.frameStep, hframes, Frame.no]
  | _ => exact absurd rfl hno

/-- A signal that is delivered: the handler of SIGCHLD starts only if it is not running. -/
theorem deliver_cases (h : r.deliver = some r') :
    r'.pid = r.pid ∧ r'.ignition = r.ignition ∧ ∃ sig rest, r.pending = sig :: rest ∧ r'.pending = rest ∧
      ((∃ p, sig = .chld p ∧ r'.view = r.view ∧ r.hellos = [] ∧ r'.hellos = [.test p]) ∨
        (sig.no ≠ .chld ∧ r'.hellos = r.hellos)) := by
  unfold Receiver.deliver at h
  split at h
  · cases h
  · rename_i sig rest hpending
    split at h
    · cases h
    · rename_i hblocked
      obtain rfl := Option.some.inj h
      refine ⟨rfl, rfl, sig, rest, hpending, rfl, ?_⟩
      cases sig with
      | chld p =>
        have hnil : r.hellos = [] := by
          simp only [Receiver.hellos, List.filter_eq_nil_iff, decide_eq_true_eq]
          intro f hf hno
          exact hblocked (.inr (List.any_eq_true.2 ⟨f, hf, decide_eq_true hno⟩))
        have hview : Receiver.view { r with pending := rest, frames := .test p :: r.frames } = r.view := by
          simp [Receiver.view, hpending, Sig.no, Frame.no]
        refine .inl ⟨p, rfl, hview, hnil, ?_⟩
        rw [hellos_cons rfl rfl]
        exact congrArg _ hnil
      | usr1 | term => exact .inr ⟨by simp [Sig.no], by simp [Receiver.hellos, Sig.handler, Frame.no]⟩

/-- The handler that runs is for the same sender as before. -/
private theorem Greeted.of_hellos {f f' : Frame P} {p : P} (h : Greeted r' p) (hpending : r'.pending = r.pending)
    (hf : r.hellos = [f]) (hf' : r'.hellos = [f']) (hpid : f'.pid? = f.pid?) : Greeted r p := by
  rcases h with h | ⟨g, hg, hgp⟩
  · exact .inl (by rwa [← hpending])
  · rw [hf', List.mem_singleton] at hg
    subst hg
    exact .inr ⟨f, by simp [hf], hpid.symm.trans hgp⟩

/-- A signal that is not SIGCHLD greets nobody. -/
private theorem Greeted.of_signal {merge : Bool} {sig : Option (Sig P)} {p : P} (h : Greeted (r.signal merge sig) p) :
    Greeted r p ∨ sig = some (.chld p) := by
  cases sig with
  | none => exact .inl h
  | some sig =>
    rcases h with h | h
    · simp only [Receiver.signal, enqueue] at h
      split at h
      · exact .inl (.inl h)
      · rcases List.mem_append.1 h with h | h
        · exact .inl (.inl h)
        · exact .inr (congrArg some (List.mem_singleton.1 h).symm)
    · exact .inl (.inr h)

end Receiver

/-! ### A sender that is not accepted -/

section Sender

variable {q q' : Sender} {p : P}

/-- It sends its SIGCHLD and waits. -/
theorem fresh_step {sig : Option (Sig P)} (h : Fresh q) (hstep : q.step p = some (q', sig)) :
    Fresh q' ∧ q'.pending = q.pending ∧ (q.pc = .spin0 → q'.pc = .spin0) ∧
      (sig = none ∨ (sig = some (.chld p) ∧ q'.pc = .spin0)) := by
  obtain ⟨hqueued, hhandler, hpending, hat⟩ := h
  rcases hat with hat | ⟨hflag, hat | hat⟩ | hat
  · simp only [Sender.step, hhandler, hat, Bool.false_eq_true, if_false, Option.some.injEq, Prod.mk.injEq] at hstep
    obtain ⟨rfl, rfl⟩ := hstep
    exact ⟨⟨hqueued, rfl, hpending, .inr (.inl ⟨rfl, .inl rfl⟩)⟩, rfl, by simp [hat], .inl rfl⟩
  · simp only [Sender.step, hhandler, hat, Bool.false_eq_true, if_false, Option.some.injEq, Prod.mk.injEq] at hstep
    obtain ⟨rfl, rfl⟩ := hstep
    exact ⟨⟨hqueued, rfl, hpending, .inr (.inl ⟨hflag, .inr rfl⟩)⟩, rfl, fun _ => rfl, .inr ⟨rfl, rfl⟩⟩
  · simp only [Sender.step, hhandler, hat, hflag, Bool.false_eq_true, if_false, Option.some.injEq, Prod.mk.injEq]
      at hstep
    obtain ⟨rfl, rfl⟩ := hstep
    exact ⟨⟨hqueued, hhandler, hpending, .inr (.inl ⟨hflag, .inr hat⟩)⟩, rfl, fun h => h, .inl rfl⟩
  · simp only [Sender.step, hhandler, hat, Bool.false_eq_true, if_false] at hstep
    cases hstep

/-- It is killed. -/
private theorem fresh_deliver (h : Fresh q) (hstep : q.deliver = some q') : q.pending ≠ [] ∧ Fresh q' := by
  unfold Sender.deliver at hstep
  split at hstep
  · cases hstep
  · rename_i rest hpending
    have hkill := h.pending .usr1 (by simp [hpending])
    cases hkill
  · rename_i rest hpending
    split at hstep
    · cases hstep
    · obtain rfl := Option.some.inj hstep
      refine ⟨by simp [hpending], h.queued, h.handler, fun s hs => h.pending s ?_, .inr (.inr rfl)⟩
      rw [hpending]
      exact List.mem_cons_of_mem _ hs

end Sender

/-! ### Every step keeps the invariant -/

section Steps

variable {s : State P}

private theorem signal_fields (merge : Bool) (sig : Option (Sig P)) (r : Receiver P) :
    (r.signal merge sig).pid = r.pid ∧ (r.signal merge sig).ignition = r.ignition ∧
      (r.signal merge sig).hellos = r.hellos := by
  cases sig <;> exact ⟨rfl, rfl, rfl⟩

private theorem ne_none_of_hellos_ne (h : Inv s) {f : Frame P} {rest : List (Frame P)}
    (hframes : s.recv.frames = f :: rest) (hno : f.no ≠ .chld) : ∃ p, s.recv.pid = some p := by
  apply Option.ne_none_iff_exists'.1
  intro hnone
  have hhandlers := (h.idle hnone).handlers
  simp [Receiver.view, hframes, hno] at hhandlers

/-- A statement of `main`. -/
theorem inv_main [DecidableEq P] {r' : Receiver P} {sig : Option (P × SendSig)} (h : Inv s)
    (hframes : s.recv.frames = []) (hstep : s.recv.mainStep = some (r', sig)) (merge : Bool) :
    Inv (match sig with
      | some (p, sig) => ⟨r', Function.update s.send p ((s.send p).signal merge sig)⟩
      | none => ⟨r', s.send⟩) := by
  obtain ⟨hpid, hignition, hframes', hpending⟩ := mainStep_fields hstep
  have hhellos : r'.hellos = s.recv.hellos := by rw [Receiver.hellos, hframes', Receiver.hellos]
  have haccept : AcceptAt r'.pid r'.ignition r'.hellos := by
    rw [hpid, hignition, hhellos]
    exact h.accept
  cases hp : s.recv.pid with
  | none =>
    -- the receiver waits in its first loop
    have hidle := h.idle hp
    have hign : s.recv.ignition = false := by
      have hnil : s.recv.hellos = [] := by simp [Receiver.hellos, hframes]
      have haccept := h.accept
      rw [hnil] at haccept
      cases haccept with
      | idle h => exact Bool.eq_false_iff.2 fun htrue => h htrue hp
    have hpc : s.recv.pc = .ignition := hidle.pc
    simp only [Receiver.mainStep, hpc, hign, Bool.false_eq_true, if_false, Option.some.injEq, Prod.mk.injEq] at hstep
    obtain ⟨rfl, rfl⟩ := hstep
    exact h
  | some a =>
    have hne : r'.pid ≠ none := by simp [hpid, hp]
    have heq : ∀ p, r'.pid = some p → p = a := by
      intro p hp'
      rw [hpid, hp] at hp'
      exact (Option.some.inj hp').symm
    rcases link_main (h.link a hp) hframes hstep with ⟨rfl, hlink⟩ | ⟨hsig, hlink⟩
    · refine ⟨haccept, fun p hp' => h.fresh p (by rwa [← hpid]), fun hnone => absurd hnone hne, ?_⟩
      intro p hp'
      rw [heq p hp']
      exact hlink
    · rw [hp] at hsig
      subst hsig
      refine ⟨haccept, fun p hp' => ?_, fun hnone => absurd hnone hne, fun p hp' => ?_⟩
      · have hpa : p ≠ a := by
          rintro rfl
          exact hp' (hpid.trans hp)
        simp only [Option.map_some, Function.update_of_ne hpa]
        exact h.fresh p (by rwa [← hpid])
      · rw [heq p hp']
        simpa using hlink merge

/-- A step of the receiver that changes neither its view nor `pid`, and greets nobody, keeps the invariant. -/
private theorem Inv.recv_congr {r' : Receiver P} (h : Inv s) (hview : r'.view = s.recv.view)
    (hpid : r'.pid = s.recv.pid)
    (haccept : AcceptAt r'.pid r'.ignition r'.hellos) (hgreeted : ∀ p, Greeted r' p → Greeted s.recv p) :
    Inv ⟨r', s.send⟩ where
  accept := haccept
  fresh p hp := h.fresh p (by rwa [← hpid])
  idle hnone := by
    have hidle := h.idle (hpid.symm.trans hnone)
    exact hidle.of_view hview hidle.pending fun p hp => hidle.greeted p (hgreeted p hp)
  link p hp := by
    rw [hview]
    exact h.link p (hpid.symm.trans hp)

/-- The first sender is accepted: it waits in its first loop, and the receiver is about to leave its own. -/
theorem inv_accept {r' : Receiver P} {p : P} (h : Inv s) (hnone : s.recv.pid = none) (hgreeted : Greeted s.recv p)
    (hview : r'.view = s.recv.view) (hpid : r'.pid = some p) (hhellos : r'.hellos = []) : Inv ⟨r', s.send⟩ := by
  have hidle := h.idle hnone
  have hne : r'.pid ≠ none := by simp [hpid]
  refine ⟨?_, fun p' _ => h.fresh p' (by simp [hnone]), fun hnone' => absurd hnone' hne, fun a ha => ?_⟩
  · rw [hhellos]
    exact .idle fun _ => hne
  · obtain rfl : p = a := Option.some.inj (hpid.symm.trans ha)
    have hfresh := h.fresh p (by simp [hnone])
    have hat := hidle.greeted p hgreeted
    have hflag : (s.send p).flag = false := by
      rcases hfresh.at_start with hpc | ⟨hflag, -⟩ | hpc
      · rw [hat] at hpc; cases hpc
      · exact hflag
      · rw [hat] at hpc; cases hpc
    have hwaits : Waits (s.send p) := ⟨hflag, hfresh.handler, hidle.pending p⟩
    have heq : (s.send p).queued = s.recv.view.consumed := hfresh.queued.trans hidle.consumed.symm
    simp only [hview]
    exact .ready (.inl hidle.pc) hidle.sigs hidle.handlers hidle.i hwaits (.inl hat) heq

/-- A step of a sender that is not accepted, or a signal to it, keeps the invariant while it stays fresh. -/
private theorem Inv.of_fresh [DecidableEq P] {r' : Receiver P} {q' : Sender} {p : P} (h : Inv s)
    (hp : s.recv.pid ≠ some p)
    (hview : r'.view = s.recv.view) (hpid : r'.pid = s.recv.pid) (haccept : AcceptAt r'.pid r'.ignition r'.hellos)
    (hfresh : Fresh q') (hidle : s.recv.pid = none → q'.pending = [] ∧ (Greeted r' p → q'.pc = .spin0) ∧
      ∀ p', p' ≠ p → Greeted r' p' → Greeted s.recv p') : Inv ⟨r', Function.update s.send p q'⟩ where
  accept := haccept
  fresh p' hp' := by
    by_cases hpp : p' = p
    · subst hpp
      simpa only [Function.update_self] using hfresh
    · simp only [Function.update_of_ne hpp]
      exact h.fresh p' (by rwa [← hpid])
  idle hnone := by
    have hnone' := hpid.symm.trans hnone
    obtain ⟨hpending, hself, hother⟩ := hidle hnone'
    have hidle := h.idle hnone'
    refine hidle.of_view hview ?_ ?_
    · intro p'
      by_cases hpp : p' = p
      · subst hpp
        simpa only [Function.update_self] using hpending
      · simp only [Function.update_of_ne hpp]
        exact hidle.pending p'
    · intro p' hp'
      by_cases hpp : p' = p
      · subst hpp
        simpa only [Function.update_self] using hself hp'
      · simp only [Function.update_of_ne hpp]
        exact hidle.greeted p' (hother p' hpp hp')
  link a ha := by
    have ha' := hpid.symm.trans ha
    have hap : a ≠ p := by
      rintro rfl
      exact hp ha'
    simp only [Function.update_of_ne hap, hview]
    exact h.link a ha'

/-- A sender that is not accepted is killed. -/
private theorem inv_kill [DecidableEq P] {r' : Receiver P} {p : P} (h : Inv s) (hview : r'.view = s.recv.view)
    (hpid : r'.pid = s.recv.pid) (hnone : s.recv.pid ≠ none) (hne : s.recv.pid ≠ some p) (hhellos : r'.hellos = [])
    (merge : Bool) : Inv ⟨r', Function.update s.send p ((s.send p).signal merge .kill)⟩ := by
  have hfresh := h.fresh p hne
  have haccept : AcceptAt r'.pid r'.ignition r'.hellos := by
    rw [hhellos]
    exact .idle fun _ => by rwa [hpid]
  refine h.of_fresh hne hview hpid haccept ⟨hfresh.queued, hfresh.handler, ?_, hfresh.at_start⟩ fun h => absurd h hnone
  intro sig hsig
  simp only [Sender.signal, enqueue] at hsig
  split at hsig
  · exact hfresh.pending sig hsig
  · rcases List.mem_append.1 hsig with hsig | hsig
    · exact hfresh.pending sig hsig
    · exact List.mem_singleton.1 hsig

/-- A statement of `killrest`. -/
private theorem inv_killrest [DecidableEq P] {f : Frame P} {rest : List (Frame P)} {r' : Receiver P}
    {sig : Option (P × SendSig)} (h : Inv s) (hframes : s.recv.frames = f :: rest) (hno : f.no = .chld)
    (hstep : s.recv.frameStep f rest = (r', sig)) (merge : Bool) :
    Inv (match sig with
      | some (p, sig) => ⟨r', Function.update s.send p ((s.send p).signal merge sig)⟩
      | none => ⟨r', s.send⟩) := by
  have hview := view_frameStep_of_chld hframes hno
  rw [hstep] at hview
  have hhellos := hellos_cons hframes hno
  have haccept := h.accept
  rw [hhellos] at haccept
  generalize hrest : rest.filter (fun f => f.no = .chld) = hellos at hhellos haccept
  cases haccept with
  | test p hign =>
    by_cases hp : s.recv.pid ≠ none ∧ s.recv.pid ≠ some p
    · rw [Receiver.frameStep, if_pos hp] at hstep
      obtain ⟨rfl, rfl⟩ := Prod.mk.inj hstep
      have hhellos' := hellos_cons (r := { s.recv with frames := .kill p :: rest }) rfl rfl
      rw [hrest] at hhellos'
      refine h.recv_congr hview rfl ?_ fun q hq => hq.of_hellos rfl hhellos hhellos' rfl
      rw [hhellos']
      exact .kill p hp.1 hp.2
    · rw [Receiver.frameStep, if_neg hp] at hstep
      obtain ⟨rfl, rfl⟩ := Prod.mk.inj hstep
      have hhellos' := hellos_cons (r := { s.recv with frames := .ignite p :: rest }) rfl rfl
      rw [hrest] at hhellos'
      refine h.recv_congr hview rfl ?_ fun q hq => hq.of_hellos rfl hhellos hhellos' rfl
      rw [hhellos']
      refine .ignite p hign ?_
      by_cases hnone : s.recv.pid = none
      · exact .inl hnone
      · exact .inr (not_not.1 fun hne => hp ⟨hnone, hne⟩)
  | kill p hnone hne =>
    obtain ⟨rfl, rfl⟩ := Prod.mk.inj hstep
    exact inv_kill h hview rfl hnone hne hrest merge
  | ignite p hign hp =>
    obtain ⟨rfl, rfl⟩ := Prod.mk.inj hstep
    have hhellos' := hellos_cons (r := { s.recv with ignition := true, frames := .setPid p :: rest }) rfl rfl
    rw [hrest] at hhellos'
    refine h.recv_congr hview rfl ?_ fun q hq => hq.of_hellos rfl hhellos hhellos' rfl
    rw [hhellos']
    exact .setPid p hp
  | setPid p hp =>
    obtain ⟨rfl, rfl⟩ := Prod.mk.inj hstep
    have hhellos' : Receiver.hellos { s.recv with pid := some p, frames := rest } = [] := hrest
    rcases hp with hp | hp
    · exact inv_accept h hp (.inr ⟨.setPid p, by simp [hhellos], rfl⟩) hview rfl hhellos'
    · refine h.recv_congr hview hp.symm ?_ fun q hq => ?_
      · rw [hhellos']
        exact .idle (by simp)
      · rcases hq with hq | ⟨g, hg, -⟩
        · exact .inl hq
        · rw [hhellos'] at hg
          cases hg

/-- Once a sender has been accepted, it stays accepted: a step that keeps its link, `killrest` and the other senders
keeps the invariant. -/
private theorem Inv.of_link {s' : State P} {a : P} (h : Inv s) (ha : s.recv.pid = some a)
    (hpid : s'.recv.pid = s.recv.pid)
    (haccept : AcceptAt s'.recv.pid s'.recv.ignition s'.recv.hellos) (hlink : Link s'.recv.view (s'.send a))
    (hfresh : ∀ p, p ≠ a → Fresh (s.send p) → Fresh (s'.send p)) : Inv s' where
  accept := haccept
  fresh p hp := by
    have hp' : s.recv.pid ≠ some p := by rwa [← hpid]
    have hpa : p ≠ a := by
      rintro rfl
      exact hp' ha
    exact hfresh p hpa (h.fresh p hp')
  idle hnone := by
    rw [hpid, ha] at hnone
    cases hnone
  link p hp := by
    rw [hpid, ha] at hp
    obtain rfl : a = p := Option.some.inj hp
    exact hlink

/-- A statement of one of the other handlers. -/
private theorem inv_frame [DecidableEq P] {f : Frame P} {rest : List (Frame P)} (h : Inv s)
    (hframes : s.recv.frames = f :: rest) (hno : f.no ≠ .chld) :
    (s.recv.frameStep f rest).2 = none ∧ Inv ⟨(s.recv.frameStep f rest).1, s.send⟩ := by
  obtain ⟨a, ha⟩ := ne_none_of_hellos_ne h hframes hno
  obtain ⟨hnone, hlink⟩ := link_frame (h.link a ha) hframes hno
  obtain ⟨hpid, hignition, hhellos, -⟩ := frameStep_fields hframes hno
  refine ⟨hnone, h.of_link ha hpid ?_ hlink fun _ _ hfresh => hfresh⟩
  simp only [hpid, hignition, hhellos]
  exact h.accept

/-- The first pending signal of the receiver starts its handler. -/
private theorem inv_deliver {r' : Receiver P} (h : Inv s) (hstep : s.recv.deliver = some r') : Inv ⟨r', s.send⟩ := by
  obtain ⟨hpid, hignition, sig, rest, hpending, hpending', hcases⟩ := deliver_cases hstep
  have haccept : AcceptAt r'.pid r'.ignition r'.hellos := by
    have haccept := h.accept
    rw [hpid, hignition]
    rcases hcases with ⟨p, rfl, -, hnil, hhellos⟩ | ⟨-, hhellos⟩
    · rw [hnil] at haccept
      rw [hhellos]
      cases haccept with
      | idle h => exact .test p h
    · rw [hhellos]
      exact haccept
  cases hp : s.recv.pid with
  | some a => exact h.of_link hp hpid haccept (link_deliver (h.link a hp) hstep) fun _ _ hfresh => hfresh
  | none =>
    rcases hcases with ⟨p, rfl, hview, -, hhellos⟩ | ⟨hno, -⟩
    · refine h.recv_congr hview hpid haccept ?_
      rintro q (hq | ⟨f, hf, hfq⟩)
      · rw [hpending'] at hq
        exact .inl (by rw [hpending]; exact List.mem_cons_of_mem _ hq)
      · rw [hhellos, List.mem_singleton] at hf
        subst hf
        obtain rfl : p = q := Option.some.inj hfq
        exact .inl (by simp [hpending])
    · -- only SIGCHLD can be pending
      have hsigs := (h.idle hp).sigs
      simp [Receiver.view, hpending, hno] at hsigs

/-- A statement of a sender. -/
private theorem inv_send [DecidableEq P] {p : P} {q' : Sender} {sig : Option (Sig P)} (h : Inv s)
    (hstep : (s.send p).step p = some (q', sig)) (merge : Bool) :
    Inv ⟨s.recv.signal merge sig, Function.update s.send p q'⟩ := by
  obtain ⟨hpid, hignition, hhellos⟩ := signal_fields merge sig s.recv
  have haccept : AcceptAt (s.recv.signal merge sig).pid (s.recv.signal merge sig).ignition
      (s.recv.signal merge sig).hellos := by
    rw [hpid, hignition, hhellos]
    exact h.accept
  by_cases hp : s.recv.pid = some p
  · obtain ⟨-, hlink⟩ := link_send (h.link p hp) hstep merge
    refine h.of_link hp hpid haccept (by simpa using hlink) fun p' hp' hfresh => ?_
    simpa only [Function.update_of_ne hp'] using hfresh
  · obtain ⟨hfresh, hpending, hspin, hsig⟩ := fresh_step (h.fresh p hp) hstep
    have hview : (s.recv.signal merge sig).view = s.recv.view := by
      rcases hsig with rfl | ⟨rfl, -⟩
      · rfl
      · exact view_signal_chld s.recv merge p
    refine h.of_fresh hp hview hpid haccept hfresh fun hnone => ⟨?_, fun hgreeted => ?_, fun p' hp' hgreeted => ?_⟩
    · exact hpending.trans ((h.idle hnone).pending p)
    · rcases hsig with rfl | ⟨-, hpc⟩
      · exact hspin ((h.idle hnone).greeted p hgreeted)
      · exact hpc
    · rcases hgreeted.of_signal with hgreeted | hgreeted
      · exact hgreeted
      · rcases hsig with rfl | ⟨rfl, -⟩
        · cases hgreeted
        · exact absurd (by simpa using hgreeted.symm) hp'

/-- A signal is delivered to a sender. -/
private theorem inv_deliverSend [DecidableEq P] {p : P} {q' : Sender} (h : Inv s)
    (hstep : (s.send p).deliver = some q') :
    Inv ⟨s.recv, Function.update s.send p q'⟩ := by
  by_cases hp : s.recv.pid = some p
  · refine h.of_link hp rfl h.accept (by simpa using link_deliverSend (h.link p hp) hstep) fun p' hp' hfresh => ?_
    simpa only [Function.update_of_ne hp'] using hfresh
  · obtain ⟨hne, hfresh⟩ := fresh_deliver (h.fresh p hp) hstep
    exact h.of_fresh hp rfl rfl h.accept hfresh fun hnone => absurd ((h.idle hnone).pending p) hne

theorem inv_step [DecidableEq P] {s' : State P} {a : Action P} (h : Inv s) (hstep : s.step a = some s') : Inv s' := by
  cases a with
  | recv merge =>
    obtain ⟨⟨r', sig⟩, hr, rfl⟩ := Option.map_eq_some_iff.1 hstep
    unfold Receiver.step at hr
    split at hr
    · rename_i f rest hframes
      have hr := Option.some.inj hr
      by_cases hno : f.no = .chld
      · exact inv_killrest h hframes hno hr merge
      · obtain ⟨hnone, hinv⟩ := inv_frame h hframes hno
        rw [hr] at hnone hinv
        subst hnone
        exact hinv
    · rename_i hframes
      exact inv_main h hframes hr merge
  | deliverRecv =>
    obtain ⟨r', hr, rfl⟩ := Option.map_eq_some_iff.1 hstep
    exact inv_deliver h hr
  | send p merge =>
    obtain ⟨⟨q', sig⟩, hq, rfl⟩ := Option.map_eq_some_iff.1 hstep
    exact inv_send h hq merge
  | deliverSend p =>
    obtain ⟨q', hq, rfl⟩ := Option.map_eq_some_iff.1 hstep
    exact inv_deliverSend h hq

end Steps

theorem inv_of_reachable [DecidableEq P] {mem : List CChar} {buf file : P → List CChar} {s : State P}
    (h : Reachable State.step (start mem buf file) s) : Inv s :=
  h.invariant (fun _ _ _ hinv hstep => inv_step hinv hstep) (inv_start mem buf file)

/-! ### What the link means -/

/-- Both processes are in a loop that waits for a flag, and no signal between them is pending or being handled. -/
def Stuck (r : Receiver P) (q : Sender) : Prop :=
  (r.pc = .spin ∧ r.flag = false ∧ r.view.sigs = [] ∧ r.view.handlers = []) ∧
    (q.pc = .spin0 ∨ q.pc = .spin) ∧ q.flag = false ∧ q.handler = false ∧ q.pending = []

/-- At most one payload has been queued and not consumed, and none when one of the two has finished. -/
private theorem Link.queued_eq {v : View P} {q : Sender} (h : Link v q) :
    ∃ inFlight, q.queued = v.consumed ++ inFlight ∧ inFlight.length ≤ 1 ∧
      (v.pc = .done ∨ q.pc = .done → inFlight = []) := by
  cases h with
  | sent hpc _ hat _ _ _ _ _ _ heq => exact ⟨_, heq, le_refl _, by simp [hpc, hat]⟩
  | taken hpc _ _ _ _ hat _ heq =>
    refine ⟨_, heq, le_refl _, ?_⟩
    rcases hpc with hpc | ⟨hpc, -⟩ | ⟨hpc, -⟩ <;> simp [hpc, hat]
  | ready _ _ _ _ _ _ heq | asked _ _ _ _ _ _ _ heq | reading _ _ _ _ _ _ _ _ heq =>
    exact ⟨[], by simpa using heq, by simp, fun _ => rfl⟩
  | sending _ _ _ _ _ _ heq | last _ _ _ _ _ _ heq | finished _ _ heq =>
    exact ⟨[], by simpa using heq, by simp, fun _ => rfl⟩

theorem Link.not_stuck {r : Receiver P} {q : Sender} (h : Link r.view q) : ¬ Stuck r q := by
  rintro ⟨⟨hpc, hflag, hsigs, hhandlers⟩, hat, hqflag, hqhandler, hqpending⟩
  have hpc' : r.view.pc = .spin := hpc
  cases h with
  | ready h _ _ _ _ _ _ => rcases h with h | h | ⟨h, -⟩ <;> rw [hpc'] at h <;> cases h
  | asked _ _ _ _ _ hack _ _ =>
    rw [hqflag, hqhandler, hqpending] at hack
    cases hack
  | reading _ _ _ _ _ _ _ h _ => rcases h with h | ⟨h, -⟩ <;> simp [h] at hat
  | sending _ _ _ _ _ h _ => rcases h with ⟨h, -⟩ | ⟨h, -⟩ | ⟨h, -⟩ <;> simp [h] at hat
  | sent _ _ _ _ hterm husr hs hh _ _ =>
    rw [hsigs] at hs
    rw [hhandlers] at hh
    obtain ⟨-, rfl⟩ := List.append_eq_nil_iff.1 hs.symm
    obtain ⟨rfl, -⟩ := List.append_eq_nil_iff.1 hh.symm
    rw [show r.view.flag = false from hflag] at husr
    cases husr
  | taken h _ _ _ _ _ _ _ => rcases h with h | ⟨h, -⟩ | ⟨h, -⟩ <;> rw [hpc'] at h <;> cases h
  | last h _ _ _ _ _ _ | finished h _ _ => rw [hpc'] at h; cases h

/-- In every interleaving of the receiver and the senders, the receiver has consumed the payloads that the sender it
has accepted has queued, in order and up to one that is in flight, the short one in its final branch; the two never
both wait; and no other sender has queued anything. -/
theorem lockstep [DecidableEq P] {mem : List CChar} {buf file : P → List CChar} {s : State P}
    (h : Reachable State.step (start mem buf file) s) :
    (∀ a, s.recv.pid = some a →
      (∃ inFlight, (s.send a).queued = s.recv.consumed ++ inFlight ∧ inFlight.length ≤ 1 ∧
        (s.recv.pc = .done ∨ (s.send a).pc = .done → inFlight = [])) ∧ ¬ Stuck s.recv (s.send a)) ∧
    (s.recv.pid = none → s.recv.consumed = []) ∧ ∀ p, s.recv.pid ≠ some p → (s.send p).queued = [] := by
  have hinv := inv_of_reachable h
  refine ⟨fun a ha => ?_, fun hnone => (hinv.idle hnone).consumed, fun p hp => (hinv.fresh p hp).queued⟩
  have hlink := hinv.link a ha
  exact ⟨hlink.queued_eq, hlink.not_stuck⟩

/-- Two senders greet the receiver: `false` is accepted, `true` is killed, and a file of one byte is transferred. -/
theorem lockstep_two_senders :
    ∃ s : State Bool, Reachable State.step (start [] (fun _ => List.replicate 8 0) (fun _ => [65])) s ∧
      s.recv.pid = some false ∧ s.recv.pc = .done ∧ (s.send false).queued = [([65, 0, 0, 0, 0, 0, 0, 0], true)] ∧
      s.recv.consumed = (s.send false).queued ∧ (s.send true).queued = [] := by
  let greet : List (Action Bool) :=
    [.send false false, .send true false, .send false false, .send true false, .deliverRecv, .recv false, .recv false,
      .recv false, .recv false, .recv false, .recv false]
  let queue : List (Action Bool) := .deliverSend false :: List.replicate 7 (.send false false)
  let kill : List (Action Bool) := [.deliverRecv, .recv false, .recv false, .deliverSend true]
  let take : List (Action Bool) :=
    [.deliverRecv, .recv false, .deliverRecv, .recv false, .recv false, .recv false, .recv false, .recv false,
      .recv false]
  let finish : List (Action Bool) := .deliverSend false :: List.replicate 3 (.send false false)
  have hrun : ((run State.step (start [] (fun _ => List.replicate 8 0) (fun _ => [65]))
      (greet ++ queue ++ kill ++ take ++ finish)).map fun s => (s.recv.pid, s.recv.pc, (s.send false).queued)) =
      some (some false, .done, [([65, 0, 0, 0, 0, 0, 0, 0], true)]) := by
    decide
  obtain ⟨s, hs, hfields⟩ := Option.map_eq_some_iff.1 hrun
  simp only [Prod.mk.injEq] at hfields
  obtain ⟨hpid, hpc, hqueued⟩ := hfields
  obtain ⟨haccepted, -, hothers⟩ := lockstep ⟨_, hs⟩
  obtain ⟨⟨inFlight, heq, -, hdone⟩, -⟩ := haccepted false hpid
  rw [hdone (.inl hpc), List.append_nil] at heq
  exact ⟨s, ⟨_, hs⟩, hpid, hpc, hqueued, heq.symm, hothers true (by simp [hpid])⟩

end UnixTasks.Trans
