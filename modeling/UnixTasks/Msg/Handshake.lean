import UnixTasks.Msg.Senders

/-!
# One sender and many receivers

With one sender the exchange of pids is a handshake: one message goes from the sender to one receiver and comes back as
the answer of this receiver.

* (`Token`) where the message is, for each place of the sender;
* (`token_sen`, `token_rec`) the steps of the sender and of a receiver;
* (`handshake`) the two ends of the exchange name each other;
* (`ended_cases`) where a run can end.
-/

namespace UnixTasks.Msg

open ActionSystem MsgQueue

variable {R : Type} {k : Kernel Text} {n₀ : Nat}

variable {c : Setting Unit R} {s t : State Unit R}

/-- No receiver has printed the pid of the sender. -/
def Silent (c : Setting Unit R) (s : State Unit R) : Prop := ∀ r, ¬ Heard c s r

/-- Exactly this receiver has. -/
def Only (c : Setting Unit R) (s : State Unit R) (r₀ : R) : Prop := ∀ r, Heard c s r ↔ r = r₀

/-- A receiver is about to answer into this queue. -/
def Answering (s : State Unit R) (id : Nat) (r : R) : Prop := ∃ text, s.rcv r = .msgsnd (some id) text

/-- No receiver is. -/
def NoAnswer (s : State Unit R) (id : Nat) : Prop := ∀ r, ¬ Answering s id r

/-- The sender has received nothing. -/
def Untold (s : State Unit R) : Prop := ∀ x, (Sum.inl (), Line.received x) ∉ s.log

/-- What the sender has received. -/
def Told (s : State Unit R) (pid : Int) : Prop := ∀ x, (Sum.inl (), Line.received x) ∈ s.log ↔ x = some pid

/-- Where the one message is while the sender is at the given place. -/
inductive Token (c : Setting Unit R) (s : State Unit R) : SenPc → Prop
  | start (hq : ∀ q ms, s.kernel.queue = some (q, ms) → ∀ m ∈ ms, m.data.pid ≠ (c.sen ()).pid) (hs : Silent c s)
      (hn : Untold s) : Token c s .msgget
  | found {id : Nat} {ms : List (Msg Text)} (hq : s.kernel.queue = some (id, ms))
      (hm : ∀ m ∈ ms, m.data.pid ≠ (c.sen ()).pid) (hs : Silent c s) (hn : Untold s) : Token c s (.rmid id)
  | cleared (hq : s.kernel.queue = none) (hs : Silent c s) (hn : Untold s) : Token c s .msgget2
  | made {id : Nat} (hq : s.kernel.queue = some (id, [])) (hno : NoAnswer s id) (hs : Silent c s) (hn : Untold s) :
      Token c s (.msgsnd id)
  | offered {id : Nat} {text : Text} (hq : s.kernel.queue = some (id, [⟨1, text⟩])) (hpid : text.pid = (c.sen ()).pid)
      (hno : NoAnswer s id) (hs : Silent c s) (hn : Untold s) : Token c s (.msgrcv id)
  | taken {id : Nat} {r₀ : R} (hq : s.kernel.queue = some (id, [])) (hr : ∀ r, Answering s id r ↔ r = r₀)
      (ho : Only c s r₀) (hn : Untold s) : Token c s (.msgrcv id)
  | answered {id : Nat} {r₀ : R} {text : Text} (hq : s.kernel.queue = some (id, [⟨2, text⟩]))
      (hpid : text.pid = (c.rcv r₀).pid) (hno : NoAnswer s id) (ho : Only c s r₀) (hn : Untold s) :
      Token c s (.msgrcv id)
  | closed {id : Nat} {r₀ : R} (hq : s.kernel.queue = some (id, [])) (hno : NoAnswer s id) (ho : Only c s r₀)
      (ht : Told s (c.rcv r₀).pid) : Token c s (.rmid2 (some id))
  | ended {r₀ : R} (hq : s.kernel.queue = none) (ho : Only c s r₀) (ht : Told s (c.rcv r₀).pid) : Token c s .done

/-- A step that changes neither the queue nor who has heard what leaves the message where it is. -/
theorem Token.quiet {pc : SenPc} (h : Token c s pc) (hk : t.kernel = s.kernel)
    (hheard : ∀ r, Heard c t r ↔ Heard c s r)
    (htold : ∀ x, (Sum.inl (), Line.received x) ∈ t.log ↔ (Sum.inl (), Line.received x) ∈ s.log)
    (hanswer : ∀ id, s.kernel.Live (some id) → ∀ r, Answering t id r ↔ Answering s id r) :
    Token c t pc := by
  have hsilent : Silent c s → Silent c t := fun hs r hr => hs r ((hheard r).1 hr)
  have honly : ∀ {r₀}, Only c s r₀ → Only c t r₀ := fun ho r => (hheard r).trans (ho r)
  have huntold : Untold s → Untold t := fun hn x hx => hn x ((htold x).1 hx)
  have htold' : ∀ {pid}, Told s pid → Told t pid := fun ht x => (htold x).trans (ht x)
  have hno : ∀ {id ms}, s.kernel.queue = some (id, ms) → NoAnswer s id → NoAnswer t id :=
    fun hq hno r hr => hno r ((hanswer _ ⟨_, _, hq, rfl⟩ r).1 hr)
  cases h with
  | start hq hs hn => exact .start (by rw [hk]; exact hq) (hsilent hs) (huntold hn)
  | found hq hm hs hn => exact .found (by rw [hk]; exact hq) hm (hsilent hs) (huntold hn)
  | cleared hq hs hn => exact .cleared (by rw [hk]; exact hq) (hsilent hs) (huntold hn)
  | made hq hno' hs hn => exact .made (by rw [hk]; exact hq) (hno hq hno') (hsilent hs) (huntold hn)
  | offered hq hpid hno' hs hn => exact .offered (by rw [hk]; exact hq) hpid (hno hq hno') (hsilent hs) (huntold hn)
  | taken hq hr ho hn =>
    exact .taken (by rw [hk]; exact hq) (fun r => (hanswer _ ⟨_, _, hq, rfl⟩ r).trans (hr r)) (honly ho) (huntold hn)
  | answered hq hpid hno' ho hn => exact .answered (by rw [hk]; exact hq) hpid (hno hq hno') (honly ho) (huntold hn)
  | closed hq hno' ho ht => exact .closed (by rw [hk]; exact hq) (hno hq hno') (honly ho) (htold' ht)
  | ended hq ho ht => exact .ended (by rw [hk]; exact hq) (honly ho) (htold' ht)

/-- The sender has a pid of its own. -/
def Setting.Distinct (c : Setting Unit R) : Prop := ∀ r, (c.rcv r).pid ≠ (c.sen ()).pid

variable [DecidableEq R]

/-- The state after a step of a receiver. -/
def State.afterRec (s : State Unit R) (r : R) (k : Kernel Text) (pc : RecPc) (l : Option Line) : State Unit R :=
  ⟨k, s.sen, Function.update s.rcv r pc, s.log ++ (l.map (.inr r, ·)).toList⟩

private theorem heard_afterRec {r r' : R} {pc : RecPc} {l : Option Line} :
    Heard c (s.afterRec r k pc l) r' ↔ Heard c s r' ∨ (r' = r ∧ l = some (.received (some (c.sen ()).pid))) := by
  constructor
  · rintro ⟨i, hi⟩
    rcases List.mem_append.1 hi with hi | hi
    · exact .inl ⟨i, hi⟩
    · simp only [Option.mem_toList, Option.map_eq_some_iff, Prod.mk.injEq, Sum.inr.injEq] at hi
      obtain ⟨l', hl, rfl, rfl⟩ := hi
      exact .inr ⟨rfl, hl⟩
  · rintro (⟨i, hi⟩ | ⟨rfl, rfl⟩)
    · exact ⟨i, List.mem_append_left _ hi⟩
    · exact ⟨(), List.mem_append_right _ (by simp)⟩

private theorem told_afterRec {r : R} {pc : RecPc} {l : Option Line} {x : Line} :
    (Sum.inl (), x) ∈ (s.afterRec r k pc l).log ↔ (Sum.inl (), x) ∈ s.log := by
  rw [State.afterRec, List.mem_append]
  simp

private theorem answering_afterRec_self {r : R} {id : Nat} {pc : RecPc} {l : Option Line} :
    Answering (s.afterRec r k pc l) id r ↔ ∃ text, pc = .msgsnd (some id) text := by
  simp only [Answering, State.afterRec, Function.update_self]

private theorem answering_afterRec_of_ne {r r' : R} {id : Nat} {pc : RecPc} {l : Option Line} (h : r' ≠ r) :
    Answering (s.afterRec r k pc l) id r' ↔ Answering s id r' := by
  simp only [Answering, State.afterRec, Function.update_of_ne h]

/-- A receiver that does not take and does not answer. -/
private theorem Token.quiet_afterRec {pcS : SenPc} {r : R} {pc : RecPc} {l : Option Line} (h : Token c s pcS)
    (hl : l ≠ some (.received (some (c.sen ()).pid)))
    (hold : ∀ id, s.kernel.Live (some id) → ¬ Answering s id r)
    (hnew : ∀ id, s.kernel.Live (some id) → ∀ text, pc ≠ .msgsnd (some id) text) :
    Token c (s.afterRec r s.kernel pc l) pcS := by
  refine h.quiet rfl (fun r' => ?_) (fun x => told_afterRec) (fun id hlive r' => ?_)
  · rw [heard_afterRec, or_iff_left]
    exact fun hr => hl hr.2
  · by_cases hrr : r' = r
    · subst hrr
      rw [answering_afterRec_self]
      exact iff_of_false (fun ⟨text, heq⟩ => hnew id hlive text heq) (hold id hlive)
    · exact answering_afterRec_of_ne hrr

/-- A receiver takes a message: one of another run, or the one of the sender. -/
private theorem token_take {r : R} {q : Nat} {ms rest : List (Msg Text)} {m : Msg Text} (text : Text)
    (h : Token c s (s.sen ())) (hq : s.kernel.queue = some (q, ms)) (htake : takeType 1 ms = some (m, rest)) :
    Token c (s.afterRec r { s.kernel with queue := some (q, rest) } (.msgsnd (some q) text)
      (some (.received (some m.data.pid)))) (s.sen ()) := by
  obtain ⟨hperm, htype⟩ := takeType_perm htake
  have hmem : m ∈ ms := hperm.mem_iff.2 List.mem_cons_self
  have hsub : ∀ m' ∈ rest, m' ∈ ms := fun m' hm' => hperm.mem_iff.2 (List.mem_cons_of_mem _ hm')
  -- a message of another run tells nobody the pid of the sender
  have hother : m.data.pid ≠ (c.sen ()).pid → ∀ r', Heard c (s.afterRec r { s.kernel with queue := some (q, rest) }
      (.msgsnd (some q) text) (some (.received (some m.data.pid)))) r' ↔ Heard c s r' := by
    intro hne r'
    rw [heard_afterRec]
    simp [hne]
  have huntold : Untold s → Untold (s.afterRec r { s.kernel with queue := some (q, rest) } (.msgsnd (some q) text)
      (some (.received (some m.data.pid)))) := fun hn x hx => hn x (told_afterRec.1 hx)
  generalize s.sen () = pcS at h
  cases h with
  | start hq' hs hn =>
    refine .start ?_ (fun r' hr' => hs r' ((hother (hq' q ms hq m hmem) r').1 hr')) (huntold hn)
    rintro q' ms' ⟨⟩ m' hm'
    exact hq' q ms hq m' (hsub m' hm')
  | found hq' hm hs hn =>
    rw [hq] at hq'
    cases hq'
    exact .found rfl (fun m' hm' => hm m' (hsub m' hm')) (fun r' hr' => hs r' ((hother (hm m hmem) r').1 hr'))
      (huntold hn)
  | cleared hq' | ended hq' =>
    rw [hq] at hq'
    cases hq'
  | made hq' | taken hq' | closed hq' =>
    rw [hq] at hq'
    cases hq'
    cases htake
  | answered hq' =>
    rw [hq] at hq'
    cases hq'
    simp [takeType] at htake
  | offered hq' hpid hno hs hn =>
    rw [hq] at hq'
    cases hq'
    simp only [takeType, if_true, Option.some.injEq, Prod.mk.injEq] at htake
    obtain ⟨rfl, rfl⟩ := htake
    refine @Token.taken R c _ _ r rfl (fun r' => ?_) (fun r' => ?_) (huntold hn)
    · by_cases hrr : r' = r
      · subst hrr
        exact iff_of_true (answering_afterRec_self.2 ⟨text, rfl⟩) rfl
      · exact iff_of_false (fun ha => hno r' ((answering_afterRec_of_ne hrr).1 ha)) hrr
    · rw [heard_afterRec, hpid, and_iff_left rfl, or_iff_right (hs r')]

private theorem token_rec_msgrcv {r : R} {id : Option Nat} {m : Option (Msg Text)} (text : Text)
    (h : Token c s (s.sen ())) (hr : s.rcv r = .msgrcv id) (hk : s.kernel.msgrcv id 1 = some (k, m)) :
    Token c (s.afterRec r k (.msgsnd id text) (some (.received (m.map fun m => m.data.pid)))) (s.sen ()) := by
  by_cases hlive : s.kernel.Live id
  · obtain ⟨q, ms, hq, rfl⟩ := hlive
    rw [msgrcv_of_live hq, Option.map_eq_some_iff] at hk
    obtain ⟨⟨m', rest⟩, htake, heq⟩ := hk
    cases heq
    exact token_take text h hq htake
  · rw [msgrcv_of_dead hlive] at hk
    cases hk
    refine h.quiet_afterRec (by simp) (fun id' _ ha => ?_) fun id' hlive' text' heq => ?_
    · obtain ⟨text', ha⟩ := ha
      rw [hr] at ha
      cases ha
    · cases heq
      exact hlive hlive'

/-- A receiver answers into the queue that there is. -/
private theorem token_answer {r : R} {q : Nat} {ms : List (Msg Text)} {text : Text} {l : Option Line}
    (hd : c.Distinct) (hpid : text.pid = (c.rcv r).pid) (h : Token c s (s.sen ()))
    (hr : s.rcv r = .msgsnd (some q) text) (hq : s.kernel.queue = some (q, ms)) (hl : ∀ x, l ≠ some (.received x)) :
    Token c (s.afterRec r { s.kernel with queue := some (q, ms ++ [⟨2, text⟩]) } .done l) (s.sen ()) := by
  have hheard : ∀ r', Heard c (s.afterRec r { s.kernel with queue := some (q, ms ++ [⟨2, text⟩]) } .done l) r' ↔
      Heard c s r' := by
    intro r'
    rw [heard_afterRec]
    simp [hl]
  have huntold : Untold s → Untold (s.afterRec r { s.kernel with queue := some (q, ms ++ [⟨2, text⟩]) } .done l) :=
    fun hn x hx => hn x (told_afterRec.1 hx)
  have hne : text.pid ≠ (c.sen ()).pid := by
    rw [hpid]
    exact hd r
  generalize s.sen () = pcS at h
  cases h with
  | start hq' hs hn =>
    refine .start ?_ (fun r' hr' => hs r' ((hheard r').1 hr')) (huntold hn)
    rintro q' ms' ⟨⟩ m hm
    rcases List.mem_append.1 hm with hm | hm
    · exact hq' q ms hq m hm
    · rwa [List.mem_singleton.1 hm]
  | found hq' hm hs hn =>
    rw [hq] at hq'
    cases hq'
    refine .found rfl ?_ (fun r' hr' => hs r' ((hheard r').1 hr')) (huntold hn)
    intro m hmem
    rcases List.mem_append.1 hmem with hmem | hmem
    · exact hm m hmem
    · rwa [List.mem_singleton.1 hmem]
  | cleared hq' | ended hq' =>
    rw [hq] at hq'
    cases hq'
  | made hq' hno | offered hq' _ hno | answered hq' _ hno | closed hq' hno =>
    rw [hq] at hq'
    cases hq'
    exact absurd ⟨text, hr⟩ (hno r)
  | taken hq' hr' ho hn =>
    rw [hq] at hq'
    cases hq'
    obtain rfl := (hr' r).1 ⟨text, hr⟩
    refine .answered rfl hpid (fun r' ha => ?_) (fun r' => (hheard r').trans (ho r')) (huntold hn)
    by_cases hrr : r' = r
    · subst hrr
      obtain ⟨text', heq⟩ := answering_afterRec_self.1 ha
      cases heq
    · exact hrr ((hr' r').1 ((answering_afterRec_of_ne hrr).1 ha))

private theorem token_rec_msgsnd {r : R} {id : Option Nat} {text : Text} (hd : c.Distinct)
    (hpid : text.pid = (c.rcv r).pid) (h : Token c s (s.sen ())) (hr : s.rcv r = .msgsnd id text)
    (hk : s.kernel.msgsnd c.cap id ⟨2, text⟩ = some k) :
    Token c (s.afterRec r k .done (some (.sent text.pid))) (s.sen ()) := by
  by_cases hlive : s.kernel.Live id
  · obtain ⟨q, ms, hq, rfl⟩ := hlive
    rw [msgsnd_of_live hq] at hk
    split at hk <;> cases hk
    exact token_answer hd hpid h hr hq (by simp)
  · rw [msgsnd_of_dead hlive] at hk
    cases hk
    refine h.quiet_afterRec (by simp) (fun id' hlive' ha => ?_) (by simp)
    obtain ⟨text', ha⟩ := ha
    rw [hr] at ha
    cases ha
    exact hlive hlive'

/-- A step of a receiver. -/
theorem token_rec {r : R} {pc : RecPc} {l : Option Line} {q₀ : Option Nat} (hap : c.Apart) (hd : c.Distinct)
    (hsound : Sound c n₀ q₀ s) (h : Token c s (s.sen ()))
    (hs : recStep c.cap (c.rcv r) s.kernel (s.rcv r) = some (k, pc, l)) :
    Token c (s.afterRec r k pc l) (s.sen ()) := by
  have hok := hsound.recOk r
  cases hr : s.rcv r with
  | msgget =>
    rw [hr] at hs
    cases hs
    exact h.quiet_afterRec (by simp) (by simp [Answering, hr]) (by simp)
  | done =>
    rw [hr] at hs
    cases hs
  | msgrcv id =>
    rw [hr, recStep, Option.map_eq_some_iff] at hs
    obtain ⟨⟨k₁, m⟩, hk, heq⟩ := hs
    cases heq
    rw [Process.idAfter_of_apart (hap.rcv r).1]
    exact token_rec_msgrcv _ h hr hk
  | msgsnd id text =>
    rw [hr] at hok
    rw [hr, recStep, Option.map_eq_some_iff] at hs
    obtain ⟨k₁, hk, heq⟩ := hs
    cases heq
    exact token_rec_msgsnd hd hok.1 h hr hk

/-- The state after a step of the sender. -/
def State.afterSen (s : State Unit R) (k : Kernel Text) (pc : SenPc) (l : Option Line) : State Unit R :=
  ⟨k, Function.update s.sen () pc, s.rcv, s.log ++ (l.map (.inl (), ·)).toList⟩

omit [DecidableEq R] in
private theorem heard_afterSen {r : R} {pc : SenPc} {l : Option Line} :
    Heard c (s.afterSen k pc l) r ↔ Heard c s r := by
  refine exists_congr fun i => ?_
  rw [State.afterSen, List.mem_append]
  simp

omit [DecidableEq R] in
private theorem told_afterSen {pc : SenPc} {l : Option Line} {x : Line} :
    (Sum.inl (), x) ∈ (s.afterSen k pc l).log ↔ (Sum.inl (), x) ∈ s.log ∨ l = some x := by
  rw [State.afterSen, List.mem_append]
  simp

omit [DecidableEq R] in
theorem token_sen {pc : SenPc} {l : Option Line} {q₀ : Option Nat} (hsound : Sound c n₀ q₀ s)
    (hap : c.Apart) (h : Token c s (s.sen ()))
    (hs : senStep c.cap (c.sen ()) s.kernel (s.sen ()) = some (k, pc, l)) :
    Token c (s.afterSen k pc l) pc := by
  have hsilent : Silent c s → Silent c (s.afterSen k pc l) := fun hs r hr => hs r (heard_afterSen.1 hr)
  have honly : ∀ {r₀}, Only c s r₀ → Only c (s.afterSen k pc l) r₀ := fun ho r => heard_afterSen.trans (ho r)
  have huntold : (∀ x, l ≠ some (.received x)) → Untold s → Untold (s.afterSen k pc l) := by
    intro hl hn x hx
    rcases told_afterSen.1 hx with hx | hx
    · exact hn x hx
    · exact hl x hx
  generalize s.sen () = pc₀ at h hs
  cases h with
  | start hq hsil hn =>
    cases hs
    have hn' := huntold (by simp) hn
    cases hqueue : s.kernel.queue with
    | none =>
      rw [msgget_of_none hqueue] at hsilent hn' ⊢
      exact .found rfl (by simp) (hsilent hsil) hn'
    | some qm =>
      rw [msgget_of_queue hqueue] at hsilent hn' ⊢
      exact .found hqueue (hq _ _ hqueue) (hsilent hsil) hn'
  | found hq hm hsil hn =>
    cases hs
    have hn' := huntold (by simp) hn
    rw [msgctlRmid_of_live hq] at hsilent hn' ⊢
    exact .cleared rfl (hsilent hsil) hn'
  | cleared hq hsil hn =>
    cases hs
    have hn' := huntold (by simp) hn
    rw [msgget_of_none hq] at hsilent hn' ⊢
    refine .made rfl (fun r hr => ?_) (hsilent hsil) hn'
    -- the identifier is new
    obtain ⟨text, hr⟩ := hr
    have hok := hsound.recOk r
    rw [show s.rcv r = _ from hr] at hok
    exact Nat.lt_irrefl _ (hok.2 _ rfl).1
  | made hq hno hsil hn =>
    simp only [senStep, Option.map_eq_some_iff] at hs
    obtain ⟨k₁, hk, heq⟩ := hs
    cases heq
    rw [msgsnd_of_live hq] at hk
    split at hk <;> cases hk
    exact .offered rfl rfl hno (hsilent hsil) (huntold (by simp) hn)
  | offered hq | taken hq =>
    simp only [senStep, msgrcv_of_live hq, takeType] at hs
    simp at hs
  | @answered id r₀ text hq hpid hno ho hn =>
    simp only [senStep, msgrcv_of_live hq, takeType, if_true, Option.map_some, Option.some.injEq,
      Process.idAfter_of_apart (hap.sen ())] at hs
    cases hs
    refine .closed rfl hno (honly ho) fun x => ?_
    rw [told_afterSen, ← hpid]
    constructor
    · rintro (hx | hx)
      · exact absurd hx (hn x)
      · simpa using hx.symm
    · rintro rfl
      exact .inr rfl
  | closed hq hno ho ht =>
    cases hs
    rw [msgctlRmid_of_live hq] at honly ⊢
    refine .ended rfl (honly ho) fun x => ?_
    rw [told_afterSen]
    simpa using ht x
  | ended => cases hs

/-- The message is where its place says, and everything in the queue is sound. -/
def Passing (c : Setting Unit R) (n₀ : Nat) (q₀ : Option Nat) (s : State Unit R) : Prop :=
  Sound c n₀ q₀ s ∧ Token c s (s.sen ())

private theorem passing_step {q₀ : Option Nat} (hap : c.Apart) (hd : c.Distinct) (s : State Unit R) (a : Unit ⊕ R)
    (t : State Unit R) (h : Passing c n₀ q₀ s) (hs : s.step c a = some t) : Passing c n₀ q₀ t := by
  obtain ⟨hsound, htoken⟩ := h
  refine ⟨sound_step hap s a t hsound hs, ?_⟩
  cases a with
  | inl i =>
    simp only [State.step, Option.map_eq_some_iff] at hs
    obtain ⟨⟨k, pc, l⟩, hs, rfl⟩ := hs
    simp only [Function.update_self]
    exact token_sen hsound hap htoken hs
  | inr r =>
    simp only [State.step, Option.map_eq_some_iff] at hs
    obtain ⟨⟨k, pc, l⟩, hs, rfl⟩ := hs
    exact token_rec hap hd hsound htoken hs

omit [DecidableEq R] in
/-- No message of an older run carries the pid of the sender. -/
private theorem passing_start (hk : WellNumbered k)
    (hold : ∀ q ms, k.queue = some (q, ms) → ∀ m ∈ ms, m.data.pid ≠ (c.sen ()).pid) :
    Passing c k.next k.find (start Unit R k) :=
  ⟨sound_start hk, .start hold (by simp [Silent, Heard, start]) (by simp [Untold, start])⟩

/-- One sender and any number of receivers, in any interleaving, with an older queue in which no message carries the pid
of the sender: the sender receives at most one pid, it is that of a receiver which has received the sender's, and no
other receiver gets the sender's. -/
theorem handshake (hap : c.Apart) (hd : c.Distinct) (hk : WellNumbered k)
    (hold : ∀ q ms, k.queue = some (q, ms) → ∀ m ∈ ms, m.data.pid ≠ (c.sen ()).pid) {as : List (Unit ⊕ R)}
    (hrun : run (State.step c) (start Unit R k) as = some s) {x : Option Int}
    (hx : (Sum.inl (), Line.received x) ∈ s.log) :
    ∃ r₀, x = some (c.rcv r₀).pid ∧
      (∀ r, (Sum.inr r, Line.received (some (c.sen ()).pid)) ∈ s.log ↔ r = r₀) ∧
      ∀ y, (Sum.inl (), Line.received y) ∈ s.log → y = x := by
  obtain ⟨-, htoken⟩ := run_invariant (passing_step hap hd) (passing_start hk hold) hrun
  have hheard : ∀ r, Heard c s r ↔ (Sum.inr r, Line.received (some (c.sen ()).pid)) ∈ s.log :=
    fun r => ⟨fun ⟨_, hi⟩ => hi, fun hi => ⟨(), hi⟩⟩
  generalize s.sen () = pc at htoken
  cases htoken with
  | @closed id r₀ hq hno ho ht =>
    refine ⟨r₀, (ht x).1 hx, fun r => (hheard r).symm.trans (ho r), fun y hy => ?_⟩
    rw [(ht y).1 hy, (ht x).1 hx]
  | @ended r₀ hq ho ht =>
    refine ⟨r₀, (ht x).1 hx, fun r => (hheard r).symm.trans (ho r), fun y hy => ?_⟩
    rw [(ht y).1 hy, (ht x).1 hx]
  | start _ _ hn | found _ _ _ hn | cleared _ _ hn | made _ _ _ hn | offered _ _ _ _ hn | taken _ _ _ hn
  | answered _ _ _ _ hn => exact absurd hx (hn x)

/-- No process can make its next system call. -/
def Ended (c : Setting Unit R) (s : State Unit R) : Prop := ∀ a, s.step c a = none

private theorem ended_rec (h : Ended c s) (r : R) : recStep c.cap (c.rcv r) s.kernel (s.rcv r) = none := by
  have := h (.inr r)
  rwa [State.step, Option.map_eq_none_iff] at this

private theorem ended_sen (h : Ended c s) : senStep c.cap (c.sen ()) s.kernel (s.sen ()) = none := by
  have := h (.inl ())
  rwa [State.step, Option.map_eq_none_iff] at this

/-- A receiver that has not finished and cannot go on waits for a message, or for room, in the queue that exists. -/
private theorem rec_waits (h : Ended c s) {r : R} (hr : s.rcv r ≠ .done) :
    ∃ id ms, s.kernel.queue = some (id, ms) ∧
      ((s.rcv r = .msgrcv (some id) ∧ takeType 1 ms = none) ∨ (Answering s id r ∧ c.cap ≤ ms.length)) := by
  have hstep := ended_rec h r
  cases hpc : s.rcv r with
  | msgget => rw [hpc] at hstep; cases hstep
  | done => exact absurd hpc hr
  | msgrcv id =>
    rw [hpc, recStep, Option.map_eq_none_iff] at hstep
    by_cases hlive : s.kernel.Live id
    · obtain ⟨q, ms, hq, rfl⟩ := hlive
      rw [msgrcv_of_live hq, Option.map_eq_none_iff] at hstep
      exact ⟨q, ms, hq, .inl ⟨rfl, hstep⟩⟩
    · rw [msgrcv_of_dead hlive] at hstep
      cases hstep
  | msgsnd id text =>
    rw [hpc, recStep, Option.map_eq_none_iff] at hstep
    by_cases hlive : s.kernel.Live id
    · obtain ⟨q, ms, hq, rfl⟩ := hlive
      rw [msgsnd_of_live hq] at hstep
      split at hstep
      · cases hstep
      · exact ⟨q, ms, hq, .inr ⟨⟨text, hpc⟩, by omega⟩⟩
    · rw [msgsnd_of_dead hlive] at hstep
      cases hstep

/-- There is no deadlock: where nobody can go on all receivers have finished, and either the sender has finished too,
with its queue removed, or its message still lies in the queue because every receiver has looked for the queue too
early. -/
theorem ended_cases (hap : c.Apart) (hd : c.Distinct) (hcap : 0 < c.cap) (hk : WellNumbered k)
    (hold : ∀ q ms, k.queue = some (q, ms) → ∀ m ∈ ms, m.data.pid ≠ (c.sen ()).pid) {as : List (Unit ⊕ R)}
    (hrun : run (State.step c) (start Unit R k) as = some s) (hend : Ended c s) :
    (∀ r, s.rcv r = .done) ∧
      ((s.sen () = .done ∧ s.kernel.queue = none) ∨
        ∃ id text, s.sen () = .msgrcv id ∧ s.kernel.queue = some (id, [⟨1, text⟩]) ∧ text.pid = (c.sen ()).pid ∧
          ∀ r, (Sum.inr r, Line.received (some (c.sen ()).pid)) ∉ s.log) := by
  obtain ⟨-, htoken⟩ := run_invariant (passing_step hap hd) (passing_start hk hold) hrun
  have hsen := ended_sen hend
  generalize hpc : s.sen () = pc at htoken hsen
  cases htoken with
  | start | found | cleared | closed => cases hsen
  | made hq =>
    rw [senStep, msgsnd_of_live hq, List.length_nil, if_pos hcap] at hsen
    cases hsen
  | offered hq hpid hno hs =>
    refine ⟨fun r => ?_, .inr ⟨_, _, rfl, hq, hpid, fun r hr => hs r ⟨(), hr⟩⟩⟩
    by_contra hr
    obtain ⟨id', ms', hq', ⟨-, htake⟩ | ⟨hsnd, -⟩⟩ := rec_waits hend hr
    · rw [hq] at hq'
      cases hq'
      simp [takeType] at htake
    · rw [hq] at hq'
      cases hq'
      exact hno r hsnd
  | @taken id r₀ hq hr =>
    -- the receiver that has taken the message can answer
    obtain ⟨text, hsnd⟩ := (hr r₀).2 rfl
    obtain ⟨id', ms', hq', ⟨hrcv, -⟩ | ⟨-, hfull⟩⟩ := rec_waits hend (r := r₀) (by rw [hsnd]; simp)
    · rw [hsnd] at hrcv
      cases hrcv
    · rw [hq] at hq'
      cases hq'
      exact absurd hcap (Nat.not_lt.2 hfull)
  | answered hq =>
    rw [senStep, msgrcv_of_live hq] at hsen
    simp [takeType] at hsen
  | ended hq =>
    refine ⟨fun r => ?_, .inl ⟨rfl, hq⟩⟩
    by_contra hr
    obtain ⟨id', ms', hq', -⟩ := rec_waits hend hr
    rw [hq] at hq'
    cases hq'

/-! ### A run -/

/-- Two receivers and a queue with a message of an older run. -/
def two : Setting Unit Bool :=
  ⟨fun _ => plainProcess 100, fun r => plainProcess (if r then 201 else 200), 1024⟩

private theorem two_apart : two.Apart := ⟨fun _ => (plainProcess_apart _).1, fun _ => plainProcess_apart _⟩

private theorem two_distinct : two.Distinct := by
  intro r
  cases r <;> decide

/-- The queue that the sender finds. -/
def leftover : Kernel Text := ⟨some (4, [⟨1, ⟨99, (0, 0)⟩⟩]), 5⟩

/-- The first receiver takes the old message and answers into the old queue; the second one comes in time. -/
def lateReceiver : List (Unit ⊕ Bool) :=
  [.inr false, .inr false, .inl (), .inl (), .inl (), .inr true, .inl (), .inr false, .inr true, .inr true, .inl (),
    .inl ()]

theorem handshake_two : ∃ s, run (State.step two) (start Unit Bool leftover) lateReceiver = some s ∧
    ∃ r₀, some (201 : Int) = some (two.rcv r₀).pid ∧
      (∀ r, (Sum.inr r, Line.received (some (two.sen ()).pid)) ∈ s.log ↔ r = r₀) ∧
      ∀ y, (Sum.inl (), Line.received y) ∈ s.log → y = some 201 := by
  refine ⟨_, rfl, handshake (c := two) (k := leftover) (x := some 201) two_apart two_distinct ?_ ?_
    (show run _ _ lateReceiver = _ from rfl) ?_⟩
  · rintro q ms ⟨⟩
    decide
  · rintro q ms ⟨⟩
    decide
  · exact List.mem_append_left _ (List.mem_append_right _ (List.mem_singleton.2 rfl))

theorem ended_cases_two : ∃ s, run (State.step two) (start Unit Bool leftover) lateReceiver = some s ∧
    (∀ r, s.rcv r = .done) ∧
      ((s.sen () = .done ∧ s.kernel.queue = none) ∨
        ∃ id text, s.sen () = .msgrcv id ∧ s.kernel.queue = some (id, [⟨1, text⟩]) ∧ text.pid = (two.sen ()).pid ∧
          ∀ r, (Sum.inr r, Line.received (some (two.sen ()).pid)) ∉ s.log) := by
  refine ⟨_, rfl, @ended_cases Bool leftover two _ _ two_apart two_distinct (by decide) ?_ ?_ lateReceiver rfl ?_⟩
  · rintro q ms ⟨⟩
    decide
  · rintro q ms ⟨⟩
    decide
  · rintro (_ | (_ | _)) <;> rfl

end UnixTasks.Msg
