import UnixTasks.Msg.Programs

/-!
# What a sender receives

A queue that has been made in the run holds messages of the run only.  A sender waits at such a queue, so that what it
receives comes from a receiver that has heard from a sender, unless its queue has been removed.

* (`Sound`) every message of a queue made in the run comes from a sender, or from a receiver that has heard from one;
* (`SenEffect`, `RecEffect`) what each system call of a program does to this;
* (`received_from_receiver`) what a sender receives, in any run of any senders and receivers.
-/

namespace UnixTasks.Msg

open ActionSystem MsgQueue

variable {S R : Type}

/-- The identifiers that have been given are below the next one. -/
def WellNumbered (k : Kernel Text) : Prop := ∀ q ms, k.queue = some (q, ms) → q < k.next

/-! ### Messages of this run -/

/-- A receiver has printed the pid of a sender. -/
def Heard (c : Setting S R) (s : State S R) (r : R) : Prop :=
  ∃ i, (Sum.inr r, Line.received (some (c.sen i).pid)) ∈ s.log

/-- A message that was put into its queue in this run. -/
def Genuine (c : Setting S R) (s : State S R) (m : Msg Text) : Prop :=
  (m.mtype = 1 ∧ ∃ i, m.data.pid = (c.sen i).pid) ∨ (m.mtype = 2 ∧ ∃ r, m.data.pid = (c.rcv r).pid ∧ Heard c s r)

/-- A queue of this run holds messages of this run only; `n₀` is its first identifier. -/
def AllGenuine (c : Setting S R) (n₀ : Nat) (s : State S R) (k : Kernel Text) : Prop :=
  ∀ q ms, k.queue = some (q, ms) → n₀ ≤ q → ∀ m ∈ ms, Genuine c s m

/-- The place of a sender: `q₀` is the identifier of the queue that was there at the start. -/
def SenOk (n₀ : Nat) (q₀ : Option Nat) (k : Kernel Text) : SenPc → Prop
  | .rmid id => id < k.next ∧ (n₀ ≤ id ∨ some id = q₀)
  | .msgsnd id | .msgrcv id => n₀ ≤ id ∧ id < k.next
  | .msgget | .msgget2 | .rmid2 _ | .done => True

/-- A sender past its first `msgctl` knows that the old queue is gone. -/
def SenPc.cleared (n₀ : Nat) : SenPc → Prop
  | .msgget => False
  | .rmid id => n₀ ≤ id
  | _ => True

/-- The place of a receiver: before it answers into a queue of this run it has heard from a sender. -/
def RecOk (c : Setting S R) (n₀ : Nat) (s : State S R) (r : R) : RecPc → Prop
  | .msgrcv id => ∀ q, id = some q → q < s.kernel.next
  | .msgsnd id text => text.pid = (c.rcv r).pid ∧
    ∀ q, id = some q → q < s.kernel.next ∧ (n₀ ≤ q → s.kernel.Live (some q) → Heard c s r)
  | .msgget | .done => True

structure Sound (c : Setting S R) (n₀ : Nat) (q₀ : Option Nat) (s : State S R) : Prop where
  numbered : WellNumbered s.kernel
  le_next : n₀ ≤ s.kernel.next
  old : ∀ q ms, s.kernel.queue = some (q, ms) → n₀ ≤ q ∨ some q = q₀
  cleared : ∀ i, (s.sen i).cleared n₀ → ∀ q ms, s.kernel.queue = some (q, ms) → n₀ ≤ q
  genuine : AllGenuine c n₀ s s.kernel
  senOk : ∀ i, SenOk n₀ q₀ s.kernel (s.sen i)
  recOk : ∀ r, RecOk c n₀ s r (s.rcv r)
  told : ∀ i x, (Sum.inl i, Line.received x) ∈ s.log →
    x = some (c.sen i).pid ∨ ∃ r, x = some (c.rcv r).pid ∧ Heard c s r

/-! ### What a system call does to the kernel -/

/-- Identifiers only grow, and a queue is an old one or has a new identifier. -/
def Evolves (k k' : Kernel Text) : Prop :=
  k.next ≤ k'.next ∧ ∀ q ms', k'.queue = some (q, ms') → q < k'.next ∧ ((∃ ms, k.queue = some (q, ms)) ∨ k.next ≤ q)

variable {k k' : Kernel Text} {c : Setting S R} {n₀ : Nat} {q₀ : Option Nat} {s t : State S R}

private theorem evolves_refl (h : WellNumbered k) : Evolves k k :=
  ⟨Nat.le_refl _, fun q ms hq => ⟨h q ms hq, .inl ⟨ms, hq⟩⟩⟩

private theorem evolves_msgget (h : WellNumbered k) : Evolves k k.msgget.1 := by
  cases hq : k.queue with
  | none =>
    rw [msgget_of_none hq]
    refine ⟨Nat.le_succ _, ?_⟩
    rintro q ms ⟨⟩
    exact ⟨Nat.lt_succ_self _, .inr (Nat.le_refl _)⟩
  | some qm =>
    rw [msgget_of_queue hq]
    exact evolves_refl h

private theorem evolves_msgctlRmid (h : WellNumbered k) (id : Option Nat) : Evolves k (k.msgctlRmid id) := by
  by_cases hlive : k.Live id
  · obtain ⟨q, ms, hq, rfl⟩ := hlive
    rw [msgctlRmid_of_live hq]
    refine ⟨Nat.le_refl _, ?_⟩
    rintro q' ms' ⟨⟩
  · rw [msgctlRmid_of_dead hlive]
    exact evolves_refl h

/-- Other messages in the same queue. -/
private theorem evolves_messages {q : Nat} {ms : List (Msg Text)} (h : WellNumbered k) (hq : k.queue = some (q, ms))
    (ms' : List (Msg Text)) : Evolves k { k with queue := some (q, ms') } := by
  refine ⟨Nat.le_refl _, ?_⟩
  rintro q' ms'' ⟨⟩
  exact ⟨h q ms hq, .inl ⟨ms, hq⟩⟩

/-- What is dead stays dead. -/
private theorem Evolves.live (h : Evolves k k') {id : Nat} (hid : id < k.next) (hlive : k'.Live (some id)) :
    k.Live (some id) := by
  obtain ⟨q, ms', hq, heq⟩ := hlive
  obtain rfl := Option.some.inj heq
  rcases (h.2 _ _ hq).2 with ⟨ms, hms⟩ | hle
  · exact ⟨_, ms, hms, rfl⟩
  · exact absurd hid (Nat.not_lt.2 hle)

private theorem SenOk.mono {pc : SenPc} (h : SenOk n₀ q₀ k pc) (hle : k.next ≤ k'.next) : SenOk n₀ q₀ k' pc := by
  cases pc with
  | rmid id => exact ⟨Nat.lt_of_lt_of_le h.1 hle, h.2⟩
  | msgsnd id | msgrcv id => exact ⟨h.1, Nat.lt_of_lt_of_le h.2 hle⟩
  | _ => trivial

theorem Heard.mono {r : R} (h : Heard c s r) (hlog : s.log <+: t.log) : Heard c t r := by
  obtain ⟨i, hi⟩ := h
  exact ⟨i, hlog.subset hi⟩

private theorem Genuine.mono {m : Msg Text} (h : Genuine c s m) (hlog : s.log <+: t.log) : Genuine c t m := by
  rcases h with h | ⟨htype, r, hr, hheard⟩
  · exact .inl h
  · exact .inr ⟨htype, r, hr, hheard.mono hlog⟩

private theorem AllGenuine.mono (h : AllGenuine c n₀ s k) (hlog : s.log <+: t.log) : AllGenuine c n₀ t k :=
  fun q ms hq hle m hm => (h q ms hq hle m hm).mono hlog

private theorem RecOk.mono {r : R} {pc : RecPc} (h : RecOk c n₀ s r pc) (hk : Evolves s.kernel t.kernel)
    (hlog : s.log <+: t.log) : RecOk c n₀ t r pc := by
  cases pc with
  | msgrcv id => exact fun q hq => Nat.lt_of_lt_of_le (h q hq) hk.1
  | msgsnd id text =>
    refine ⟨h.1, fun q hq => ?_⟩
    obtain ⟨hlt, hheard⟩ := h.2 q hq
    exact ⟨Nat.lt_of_lt_of_le hlt hk.1, fun hle hlive => (hheard hle (hk.live hlt hlive)).mono hlog⟩
  | _ => trivial

/-! ### What a system call does to the messages -/

private theorem AllGenuine.msgget (h : AllGenuine c n₀ s k) : AllGenuine c n₀ s k.msgget.1 := by
  cases hq : k.queue with
  | none =>
    rw [msgget_of_none hq]
    rintro q ms ⟨⟩ - m hm
    cases hm
  | some qm =>
    rw [msgget_of_queue hq]
    exact h

private theorem AllGenuine.msgctlRmid (h : AllGenuine c n₀ s k) (id : Option Nat) :
    AllGenuine c n₀ s (k.msgctlRmid id) := by
  by_cases hlive : k.Live id
  · obtain ⟨q, ms, hq, rfl⟩ := hlive
    rw [msgctlRmid_of_live hq]
    rintro q' ms' ⟨⟩
  · rw [msgctlRmid_of_dead hlive]
    exact h

/-- A message is put into a queue; into one of this run only a message of this run. -/
private theorem AllGenuine.msgsnd {cap : Nat} {id : Option Nat} {m : Msg Text} (h : AllGenuine c n₀ s k)
    (hnum : WellNumbered k) (hm : ∀ q, id = some q → k.Live (some q) → n₀ ≤ q → Genuine c s m)
    (hk : k.msgsnd cap id m = some k') : Evolves k k' ∧ AllGenuine c n₀ s k' := by
  by_cases hlive : k.Live id
  · obtain ⟨q, ms, hq, rfl⟩ := hlive
    rw [msgsnd_of_live hq] at hk
    split at hk <;> cases hk
    refine ⟨evolves_messages hnum hq _, ?_⟩
    rintro q' ms' ⟨⟩ hle m' hm'
    rcases List.mem_append.1 hm' with hm' | hm'
    · exact h q ms hq hle m' hm'
    · rw [List.mem_singleton.1 hm']
      exact hm q rfl ⟨q, ms, hq, rfl⟩ hle
  · rw [msgsnd_of_dead hlive] at hk
    cases hk
    exact ⟨evolves_refl hnum, h⟩

/-- A message is taken from a queue; from one of this run it is a message of this run. -/
private theorem AllGenuine.msgrcv {id : Option Nat} {typ : Int} {m : Option (Msg Text)} (h : AllGenuine c n₀ s k)
    (hnum : WellNumbered k) (hk : k.msgrcv id typ = some (k', m)) :
    Evolves k k' ∧ AllGenuine c n₀ s k' ∧
      ((¬ k.Live id ∧ m = none) ∨ ∃ q m', id = some q ∧ m = some m' ∧ m'.mtype = typ ∧ (n₀ ≤ q → Genuine c s m')) := by
  by_cases hlive : k.Live id
  · obtain ⟨q, ms, hq, rfl⟩ := hlive
    rw [msgrcv_of_live hq, Option.map_eq_some_iff] at hk
    obtain ⟨⟨m', rest⟩, htake, heq⟩ := hk
    cases heq
    obtain ⟨hperm, htype⟩ := takeType_perm htake
    refine ⟨evolves_messages hnum hq _, ?_, .inr ⟨q, m', rfl, rfl, htype, fun hle => ?_⟩⟩
    · rintro q' ms' ⟨⟩ hle m hm
      exact h q ms hq hle m (hperm.mem_iff.2 (List.mem_cons_of_mem _ hm))
    · exact h q ms hq hle m' (hperm.mem_iff.2 List.mem_cons_self)
  · rw [msgrcv_of_dead hlive] at hk
    cases hk
    exact ⟨evolves_refl hnum, h, .inl ⟨hlive, rfl⟩⟩

/-- What a step has to show besides the frame: the place of the process that moves, the messages, and what is told. -/
private theorem Sound.of_step (h : Sound c n₀ q₀ s) (hk : Evolves s.kernel t.kernel) (hlog : s.log <+: t.log)
    (hcleared : ∀ i, (t.sen i).cleared n₀ → (s.sen i).cleared n₀ ∨
      ∀ q ms, t.kernel.queue = some (q, ms) → n₀ ≤ q)
    (hgenuine : AllGenuine c n₀ t t.kernel)
    (hsen : ∀ i, t.sen i = s.sen i ∨ SenOk n₀ q₀ t.kernel (t.sen i))
    (hrec : ∀ r, t.rcv r = s.rcv r ∨ RecOk c n₀ t r (t.rcv r))
    (htold : ∀ i x, (Sum.inl i, Line.received x) ∈ t.log → (Sum.inl i, Line.received x) ∈ s.log ∨
      x = some (c.sen i).pid ∨ ∃ r, x = some (c.rcv r).pid ∧ Heard c t r) : Sound c n₀ q₀ t where
  numbered := fun q ms hq => (hk.2 q ms hq).1
  le_next := Nat.le_trans h.le_next hk.1
  old := by
    intro q ms hq
    rcases (hk.2 q ms hq).2 with ⟨ms', hms⟩ | hle
    · exact h.old q ms' hms
    · exact .inl (Nat.le_trans h.le_next hle)
  cleared := by
    intro i hi q ms hq
    rcases hcleared i hi with hs | ht
    · rcases (hk.2 q ms hq).2 with ⟨ms', hms⟩ | hle
      · exact h.cleared i hs q ms' hms
      · exact Nat.le_trans h.le_next hle
    · exact ht q ms hq
  genuine := hgenuine
  senOk := by
    intro i
    rcases hsen i with heq | hok
    · rw [heq]
      exact (h.senOk i).mono hk.1
    · exact hok
  recOk := by
    intro r
    rcases hrec r with heq | hok
    · rw [heq]
      exact (h.recOk r).mono hk hlog
    · exact hok
  told := by
    intro i x hx
    rcases htold i x hx with hs | ht
    · rcases h.told i x hs with hown | ⟨r, hr, hheard⟩
      · exact .inl hown
      · exact .inr ⟨r, hr, hheard.mono hlog⟩
    · exact ht

/-! ### The steps of a sender -/

/-- What a system call of the sender `i` does: the kernel, its next place, the messages and what it prints. -/
structure SenEffect (c : Setting S R) (n₀ : Nat) (q₀ : Option Nat) (s : State S R) (i : S) (k' : Kernel Text)
    (pc : SenPc) (l : Option Line) : Prop where
  evolves : Evolves s.kernel k'
  place : SenOk n₀ q₀ k' pc
  cleared : pc.cleared n₀ → (s.sen i).cleared n₀ ∨ ∀ q ms, k'.queue = some (q, ms) → n₀ ≤ q
  genuine : AllGenuine c n₀ s k'
  told : ∀ x, l = some (.received x) → x = some (c.sen i).pid ∨ ∃ r, x = some (c.rcv r).pid ∧ Heard c s r

variable {i : S}

/-- The first `msgget` finds the queue that there is, or makes one. -/
private theorem senEffect_msgget (h : Sound c n₀ q₀ s) :
    SenEffect c n₀ q₀ s i s.kernel.msgget.1 (.rmid s.kernel.msgget.2) none := by
  cases hq : s.kernel.queue with
  | none =>
    refine ⟨evolves_msgget h.numbered, ?_, fun _ => .inr ?_, h.genuine.msgget, by simp⟩
    · rw [msgget_of_none hq]
      exact ⟨Nat.lt_succ_self _, .inl h.le_next⟩
    · rw [msgget_of_none hq]
      rintro q ms ⟨⟩
      exact h.le_next
  | some qm =>
    refine ⟨evolves_msgget h.numbered, ?_, fun hle => .inr ?_, h.genuine.msgget, by simp⟩
    · rw [msgget_of_queue hq]
      exact ⟨h.numbered _ _ hq, h.old _ _ hq⟩
    · rw [msgget_of_queue hq] at hle ⊢
      intro q ms hq'
      rw [hq] at hq'
      cases hq'
      exact hle

/-- After the first `msgctl` the old queue is gone: it has been removed now or by somebody else. -/
private theorem senEffect_rmid (h : Sound c n₀ q₀ s) {id : Nat} (hpc : s.sen i = .rmid id) :
    SenEffect c n₀ q₀ s i (s.kernel.msgctlRmid (some id)) .msgget2 none := by
  have hok := h.senOk i
  have hclear := h.cleared i
  rw [hpc] at hok hclear
  refine ⟨evolves_msgctlRmid h.numbered _, trivial, fun _ => .inr ?_, h.genuine.msgctlRmid _, by simp⟩
  intro q ms hq
  by_cases hlive : s.kernel.Live (some id)
  · obtain ⟨q', ms', hq', heq⟩ := hlive
    obtain rfl := Option.some.inj heq
    rw [msgctlRmid_of_live hq'] at hq
    cases hq
  · rw [msgctlRmid_of_dead hlive] at hq
    rcases hok.2 with hle | heq
    · exact hclear hle q ms hq
    · rcases h.old q ms hq with hle | hold
      · exact hle
      · exact absurd ⟨q, ms, hq, heq.trans hold.symm⟩ hlive

private theorem senEffect_msgget2 (h : Sound c n₀ q₀ s) (hpc : s.sen i = .msgget2) :
    SenEffect c n₀ q₀ s i s.kernel.msgget.1 (.msgsnd s.kernel.msgget.2) none := by
  have hclear : (s.sen i).cleared n₀ := by
    rw [hpc]
    trivial
  refine ⟨evolves_msgget h.numbered, ?_, fun _ => .inl hclear, h.genuine.msgget, by simp⟩
  cases hq : s.kernel.queue with
  | none =>
    rw [msgget_of_none hq]
    exact ⟨h.le_next, Nat.lt_succ_self _⟩
  | some qm =>
    rw [msgget_of_queue hq]
    exact ⟨h.cleared i hclear _ _ hq, h.numbered _ _ hq⟩

private theorem senEffect_msgsnd (h : Sound c n₀ q₀ s) {id cap : Nat} {behind : Int × Int}
    (hpc : s.sen i = .msgsnd id) (hk : s.kernel.msgsnd cap (some id) ⟨1, ⟨(c.sen i).pid, behind⟩⟩ = some k') :
    SenEffect c n₀ q₀ s i k' (.msgrcv id) (some (.sent (c.sen i).pid)) := by
  have hok := h.senOk i
  rw [hpc] at hok
  obtain ⟨hev, hgen⟩ := h.genuine.msgsnd h.numbered (fun _ _ _ _ => .inl ⟨rfl, i, rfl⟩) hk
  exact ⟨hev, hok.mono hev.1, fun _ => .inl (by rw [hpc]; trivial), hgen, by simp⟩

private theorem senEffect_msgrcv (h : Sound c n₀ q₀ s) {id : Nat} {m : Option (Msg Text)} (hpc : s.sen i = .msgrcv id)
    (hk : s.kernel.msgrcv (some id) 2 = some (k', m)) (id' : Option Nat) :
    SenEffect c n₀ q₀ s i k' (.rmid2 id')
      (some (.received (some ((m.map fun m => m.data.pid).getD (c.sen i).pid)))) := by
  have hok := h.senOk i
  rw [hpc] at hok
  obtain ⟨hev, hgen, hm⟩ := h.genuine.msgrcv h.numbered hk
  refine ⟨hev, trivial, fun _ => .inl (by rw [hpc]; trivial), hgen, ?_⟩
  rintro x ⟨⟩
  rcases hm with ⟨-, rfl⟩ | ⟨q, m', heq, rfl, htype, hgenuine⟩
  · exact .inl rfl
  · obtain rfl := Option.some.inj heq
    rcases hgenuine hok.1 with ⟨hone, -⟩ | ⟨-, r, hr, hheard⟩
    · rw [htype] at hone
      cases hone
    · exact .inr ⟨r, congrArg some hr, hheard⟩

private theorem senEffect_rmid2 (h : Sound c n₀ q₀ s) {id : Option Nat} (hpc : s.sen i = .rmid2 id) :
    SenEffect c n₀ q₀ s i (s.kernel.msgctlRmid id) .done none :=
  ⟨evolves_msgctlRmid h.numbered _, trivial, fun _ => .inl (by rw [hpc]; trivial), h.genuine.msgctlRmid _, by simp⟩

/-- A step of a sender. -/
theorem senStep_sound (h : Sound c n₀ q₀ s) {pc : SenPc} {l : Option Line}
    (hs : senStep c.cap (c.sen i) s.kernel (s.sen i) = some (k', pc, l)) : SenEffect c n₀ q₀ s i k' pc l := by
  cases hpc : s.sen i with
  | msgget =>
    rw [hpc] at hs
    cases hs
    exact senEffect_msgget h
  | rmid id =>
    rw [hpc] at hs
    cases hs
    exact senEffect_rmid h hpc
  | msgget2 =>
    rw [hpc] at hs
    cases hs
    exact senEffect_msgget2 h hpc
  | msgsnd id =>
    rw [hpc, senStep, Option.map_eq_some_iff] at hs
    obtain ⟨k₁, hk, heq⟩ := hs
    cases heq
    exact senEffect_msgsnd h hpc hk
  | msgrcv id =>
    rw [hpc, senStep, Option.map_eq_some_iff] at hs
    obtain ⟨⟨k₁, m⟩, hk, heq⟩ := hs
    cases heq
    exact senEffect_msgrcv h hpc hk _
  | rmid2 id =>
    rw [hpc] at hs
    cases hs
    exact senEffect_rmid2 h hpc
  | done =>
    rw [hpc] at hs
    cases hs

/-! ### The steps of a receiver -/

/-- What a system call of the receiver `r` does, seen from the state after it. -/
structure RecEffect (c : Setting S R) (n₀ : Nat) (s t : State S R) (r : R) (pc : RecPc) : Prop where
  evolves : Evolves s.kernel t.kernel
  place : RecOk c n₀ t r pc
  genuine : AllGenuine c n₀ t t.kernel

variable {r : R}

/-- A receiver that has taken a message from a queue of this run has heard from a sender. -/
private theorem recEffect_msgrcv (hap : c.Apart) (h : Sound c n₀ q₀ s) {id : Option Nat} {m : Option (Msg Text)}
    (hpc : s.rcv r = .msgrcv id) (hk : s.kernel.msgrcv id 1 = some (t.kernel, m)) (hpre : s.log <+: t.log)
    (hlog : (Sum.inr r, Line.received (m.map fun m => m.data.pid)) ∈ t.log) (behind : Int × Int) :
    RecEffect c n₀ s t r (.msgsnd ((c.rcv r).idAfter id m) ⟨(c.rcv r).pidAfter id m, behind⟩) := by
  have hok := h.recOk r
  rw [hpc] at hok
  obtain ⟨hev, hgen, hm⟩ := h.genuine.msgrcv h.numbered hk
  refine ⟨hev, ⟨Process.pidAfter_of_apart (hap.rcv r).2 id m, fun q hq => ?_⟩, hgen.mono hpre⟩
  rw [Process.idAfter_of_apart (hap.rcv r).1] at hq
  refine ⟨Nat.lt_of_lt_of_le (hok q hq) hev.1, fun hle hlive => ?_⟩
  rcases hm with ⟨hdead, -⟩ | ⟨q', m', hq', rfl, htype, hgenuine⟩
  · exact absurd (hq ▸ hev.live (hok q hq) hlive) hdead
  · obtain rfl : q = q' := Option.some.inj (hq.symm.trans hq')
    rcases hgenuine hle with ⟨-, i, hi⟩ | ⟨htwo, -⟩
    · refine ⟨i, ?_⟩
      rwa [Option.map_some, hi] at hlog
    · rw [htype] at htwo
      cases htwo

private theorem recEffect_msgsnd (h : Sound c n₀ q₀ s) {id : Option Nat} {text : Text} {cap : Nat}
    (hpc : s.rcv r = .msgsnd id text) (hk : s.kernel.msgsnd cap id ⟨2, text⟩ = some t.kernel)
    (hpre : s.log <+: t.log) : RecEffect c n₀ s t r .done := by
  have hok := h.recOk r
  rw [hpc] at hok
  obtain ⟨hev, hgen⟩ := h.genuine.msgsnd h.numbered
    (fun q hq hlive hle => .inr ⟨rfl, r, hok.1, (hok.2 q hq).2 hle hlive⟩) hk
  exact ⟨hev, trivial, hgen.mono hpre⟩

/-- A step of a receiver. -/
theorem recStep_sound (hap : c.Apart) (h : Sound c n₀ q₀ s) {pc : RecPc} {l : Option Line}
    (hs : recStep c.cap (c.rcv r) s.kernel (s.rcv r) = some (t.kernel, pc, l))
    (hlog : t.log = s.log ++ (l.map (.inr r, ·)).toList) : RecEffect c n₀ s t r pc := by
  have hpre : s.log <+: t.log := ⟨_, hlog.symm⟩
  cases hpc : s.rcv r with
  | msgget =>
    rw [hpc, recStep, Option.some.injEq, Prod.mk.injEq, Prod.mk.injEq] at hs
    obtain ⟨hk, rfl, -⟩ := hs
    refine ⟨hk ▸ evolves_refl h.numbered, fun q hq => ?_, hk ▸ h.genuine.mono hpre⟩
    obtain ⟨⟨q', ms⟩, hqueue, rfl⟩ := Option.map_eq_some_iff.1 hq
    exact hk ▸ h.numbered _ _ hqueue
  | msgrcv id =>
    rw [hpc, recStep, Option.map_eq_some_iff] at hs
    obtain ⟨⟨k₁, m⟩, hk, heq⟩ := hs
    cases heq
    exact recEffect_msgrcv hap h hpc hk hpre (by rw [hlog]; simp) _
  | msgsnd id text =>
    rw [hpc, recStep, Option.map_eq_some_iff] at hs
    obtain ⟨k₁, hk, heq⟩ := hs
    cases heq
    exact recEffect_msgsnd h hpc hk hpre
  | done =>
    rw [hpc] at hs
    cases hs

/-! ### Any number of senders and receivers -/

section Runs

variable [DecidableEq S] [DecidableEq R]

theorem sound_step (hap : c.Apart) (s : State S R) (a : S ⊕ R) (t : State S R) (h : Sound c n₀ q₀ s)
    (hs : s.step c a = some t) : Sound c n₀ q₀ t := by
  cases a with
  | inl i =>
    simp only [State.step, Option.map_eq_some_iff] at hs
    obtain ⟨⟨k, pc, l⟩, hs, rfl⟩ := hs
    have heff := senStep_sound h hs
    have hpre : s.log <+: s.log ++ (l.map ((Sum.inl i : S ⊕ R), ·)).toList := List.prefix_append ..
    refine h.of_step heff.evolves hpre ?_ (heff.genuine.mono hpre) ?_ (fun r => .inl rfl) ?_
    · intro i' hi'
      by_cases hii : i' = i
      · subst hii
        simp only [Function.update_self] at hi'
        exact heff.cleared hi'
      · simp only [Function.update_of_ne hii] at hi'
        exact .inl hi'
    · intro i'
      by_cases hii : i' = i
      · subst hii
        exact .inr (by simpa using heff.place)
      · exact .inl (Function.update_of_ne hii ..)
    · intro i' x hx
      rcases List.mem_append.1 hx with hx | hx
      · exact .inl hx
      · simp only [Option.mem_toList, Option.map_eq_some_iff, Prod.mk.injEq, Sum.inl.injEq] at hx
        obtain ⟨l', hl, rfl, rfl⟩ := hx
        rcases heff.told x hl with hown | ⟨r, hr, hheard⟩
        · exact .inr (.inl hown)
        · exact .inr (.inr ⟨r, hr, hheard.mono hpre⟩)
  | inr r =>
    simp only [State.step, Option.map_eq_some_iff] at hs
    obtain ⟨⟨k, pc, l⟩, hs, rfl⟩ := hs
    have heff := recStep_sound (t := ⟨k, s.sen, Function.update s.rcv r pc, s.log ++ (l.map (.inr r, ·)).toList⟩) hap h
      hs rfl
    refine h.of_step heff.evolves (List.prefix_append ..) (fun i hi => .inl hi) heff.genuine (fun i => .inl rfl) ?_ ?_
    · intro r'
      by_cases hrr : r' = r
      · subst hrr
        exact .inr (by simpa using heff.place)
      · exact .inl (Function.update_of_ne hrr ..)
    · intro i x hx
      rcases List.mem_append.1 hx with hx | hx
      · exact .inl hx
      · simp at hx

omit [DecidableEq S] [DecidableEq R] in
theorem sound_start (hk : WellNumbered k) : Sound c k.next k.find (start S R k) where
  numbered := hk
  le_next := Nat.le_refl _
  old := fun q ms hq => .inr (by simp [Kernel.find, show k.queue = _ from hq])
  cleared := fun _ hi => hi.elim
  genuine := fun q ms hq hle => absurd (hk q ms hq) (Nat.not_lt.2 hle)
  senOk := fun _ => trivial
  recOk := fun _ => trivial
  told := by simp [start]

/-- Whatever queue exists at the start, however any number of senders and receivers are interleaved, and whatever else
lies behind `msg` in their memories: a sender that prints a received pid prints its own (its queue has been removed by
another sender) or that of a receiver which has received the pid of a sender. -/
theorem received_from_receiver (hap : c.Apart) (hk : WellNumbered k) {as : List (S ⊕ R)}
    (hrun : run (State.step c) (start S R k) as = some s) {i : S} {x : Option Int}
    (hx : (Sum.inl i, Line.received x) ∈ s.log) :
    x = some (c.sen i).pid ∨
      ∃ r, x = some (c.rcv r).pid ∧ ∃ i', (Sum.inr r, Line.received (some (c.sen i').pid)) ∈ s.log :=
  (run_invariant (sound_step hap) (sound_start hk) hrun).told i x hx

end Runs

/-- The `key` of all processes, and nothing of use behind `msg`. -/
def plainProcess (pid : Int) : Process := ⟨pid, 7, ⟨some .key, none, (0, 0)⟩⟩

theorem plainProcess_apart (pid : Int) :
    (plainProcess pid).frame.Apart .id ∧ (plainProcess pid).frame.Apart .pid := ⟨⟨nofun, nofun⟩, nofun, nofun⟩

/-- Two senders and a receiver. -/
def pair : Setting Bool Unit := ⟨fun i => plainProcess (if i then 102 else 101), fun _ => plainProcess 201, 1024⟩

/-- The queue that the first sender throws away. -/
def leftBehind : Kernel Text := ⟨some (0, [⟨2, ⟨7, (0, 0)⟩⟩]), 1⟩

/-- The second sender removes the queue of the first one, and gets the answer of the receiver. -/
def secondSender : List (Bool ⊕ Unit) :=
  [.inl false, .inl false, .inl false, .inl false, .inl true, .inl true, .inl true, .inl true, .inl false, .inr (),
    .inr (), .inr (), .inl true]

theorem received_from_receiver_two : ∃ s, run (State.step pair) (start Bool Unit leftBehind) secondSender = some s ∧
    (some 201 = some (pair.sen true).pid ∨ ∃ r, some 201 = some (pair.rcv r).pid ∧
      ∃ i, (Sum.inr r, Line.received (some (pair.sen i).pid)) ∈ s.log) := by
  obtain ⟨s, hrun, hlog⟩ : ∃ s, run (State.step pair) (start Bool Unit leftBehind) secondSender = some s ∧
      (Sum.inl true, Line.received (some 201)) ∈ s.log := by
    refine ⟨_, rfl, ?_⟩
    exact List.mem_append_right _ (List.mem_singleton.2 rfl)
  have hap : pair.Apart := ⟨fun _ => (plainProcess_apart _).1, fun _ => plainProcess_apart _⟩
  refine ⟨s, hrun, received_from_receiver hap ?_ hrun hlog⟩
  rintro q ms ⟨⟩
  decide

/-- Where the compiler keeps `pid` behind `msg`, the receiver answers with the pid of the sender. -/
example :
    let c : Setting Unit Unit :=
      ⟨fun _ => ⟨101, 7, ⟨some .pid, none, (0, 0)⟩⟩, fun _ => ⟨201, 7, ⟨some .pid, none, (0, 0)⟩⟩, 1⟩
    (run (State.step c) (start Unit Unit ⟨none, 0⟩) [.inl (), .inl (), .inl (), .inl (), .inr (), .inr (), .inr (),
      .inl ()]).map (fun s => s.log.getLast?) = some (some (.inl (), .received (some 101))) := by
  decide

end UnixTasks.Msg
