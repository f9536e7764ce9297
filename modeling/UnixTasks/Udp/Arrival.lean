import UnixTasks.Udp.Mail

/-!
# Every line reaches the right child

The clients, the master and the children run in any order.  A child has read the first part of what its client has sent
(`Serves`).

* (`serves_read`, `reads_round`) the children;
* (`Books`) the datagrams, the clients and the children together; every step keeps them (`books_step`);
* (`commands_arrive`) what the children execute, in every run.
-/

namespace UnixTasks.Udp

open CChar CString ActionSystem

/-! ### Pairs of lists -/

section Forall₂

variable {α β γ : Type} {R : α → β → Prop}

private theorem forall₂_comp {S : β → γ → Prop} {T : α → γ → Prop} (hT : ∀ x y z, R x y → S y z → T x z) {xs : List α}
    {ys : List β} {zs : List γ} (hR : List.Forall₂ R xs ys) (hS : List.Forall₂ S ys zs) : List.Forall₂ T xs zs := by
  induction hR generalizing zs with
  | nil =>
    cases hS
    exact .nil
  | cons hxy _ ih =>
    cases hS with
    | cons hyz hS => exact .cons (hT _ _ _ hxy hyz) (ih hS)

private theorem exists_append_of_forall₂ {xs : List α} {ys ys' : List β} (h : List.Forall₂ R xs (ys ++ ys')) :
    ∃ as as', xs = as ++ as' ∧ List.Forall₂ R as ys ∧ List.Forall₂ R as' ys' :=
  ⟨xs.take ys.length, xs.drop ys.length, (List.take_append_drop ..).symm, List.forall₂_take_append _ _ _ h,
    List.forall₂_drop_append _ _ _ h⟩

end Forall₂

/-! ### The children -/

section Children

variable {ι : Type} {id : ι → List CChar}

/-- The child has read the first of these payloads: the key of its client, and a command from each other one. -/
structure Serves (c : ChildProcess ι) (payloads : List (List CChar)) : Prop where
  key : c.state = .key → c.reads = 0 ∧ c.commands = []
  commands : c.state ≠ .key → c.K = sessionKey ∧ ∃ read unread, payloads = cstr [keyB] :: (read ++ unread) ∧
    c.reads = read.length + 1 ∧
    List.Forall₂ (fun payload command => ∃ beyond, command = childCommand sessionKey (padded bufSz payload) beyond)
      read c.commands ∧
    (c.state = .exited → ∃ init payload, read = init ++ [payload] ∧ Quits (crypto sessionKey (padded bufSz payload)))

private theorem serves_new (name : Option ι) : Serves (.new name) [] := ⟨fun _ => ⟨rfl, rfl⟩, fun h => absurd rfl h⟩

theorem Serves.append {c : ChildProcess ι} {payloads : List (List CChar)} (h : Serves c payloads)
    (more : List (List CChar)) : Serves c (payloads ++ more) := by
  refine ⟨h.key, fun hstate => ?_⟩
  obtain ⟨hK, read, unread, rfl, hrest⟩ := h.commands hstate
  exact ⟨hK, read, unread ++ more, by simp, hrest⟩

/-- The first buffer is the key of the client, and the child finds the same key in it as the client has. -/
theorem serves_read {c : ChildProcess ι} {payloads : List (List CChar)} (h : Serves c payloads)
    (hkey : ∀ payload ∈ payloads.head?, payload = cstr [keyB]) {data : List CChar}
    (hdata : (payloads.map (padded bufSz))[c.reads]? = some data) (hstate : c.state ≠ .exited) (bashWork : Bool)
    (beyond : List CChar) : Serves (c.read bashWork data beyond) payloads := by
  rw [List.getElem?_map, Option.map_eq_some_iff] at hdata
  obtain ⟨payload, hget, rfl⟩ := hdata
  cases hc : c.state with
  | key =>
    obtain ⟨hreads, hcommands⟩ := h.key hc
    rw [hreads, ← List.head?_eq_getElem?] at hget
    obtain ⟨rest, rfl⟩ : ∃ rest, payloads = payload :: rest := List.head?_eq_some_iff.1 hget
    obtain rfl := hkey payload rfl
    refine ⟨by simp [ChildProcess.read, hc, Child.read], fun _ => ⟨?_, [], rest, rfl, ?_, ?_, ?_⟩⟩
    · simp only [ChildProcess.read, hc, if_true]
      decide
    · simp [ChildProcess.read, hreads]
    · simp [ChildProcess.read, hc, hcommands]
    · simp [ChildProcess.read, hc, Child.read]
  | commands =>
    obtain ⟨hK, read, unread, hpayloads, hreads, hall, -⟩ := h.commands (by rw [hc]; simp)
    rw [hpayloads, hreads, List.getElem?_cons_succ, List.getElem?_append_right (Nat.le_refl _), Nat.sub_self,
      ← List.head?_eq_getElem?] at hget
    obtain ⟨unread, rfl⟩ : ∃ rest, unread = payload :: rest := List.head?_eq_some_iff.1 hget
    have hread : (c.read bashWork (padded bufSz payload) beyond).state =
        if Quits (crypto sessionKey (padded bufSz payload)) then .exited else .commands := by
      simp only [ChildProcess.read, hc, Child.read, hK, cmpComm_eq_quit_iff]
    have hnot : (c.read bashWork (padded bufSz payload) beyond).state ≠ .key := by
      rw [hread]
      split <;> simp
    refine ⟨fun h => absurd h hnot, fun _ => ⟨?_, read ++ [payload], unread, by simpa using hpayloads, ?_, ?_, ?_⟩⟩
    · simp [ChildProcess.read, hc, hK]
    · simp [ChildProcess.read, hreads]
    · simp only [ChildProcess.read, hc, hK, if_true]
      exact List.rel_append hall (.cons ⟨beyond, rfl⟩ .nil)
    · rw [hread]
      split
      · rename_i hq
        exact fun _ => ⟨read, payload, rfl, hq⟩
      · intro hex
        cases hex
  | exited => exact absurd hc hstate

/-- The pipe `p` is that of a client whose connect the master has received; what has been written to it is what the
client has sent. -/
def Reads (id : ι → List CChar) (done : List (Letter ι)) (m : Master) (p : Nat) (c : ChildProcess ι) : Prop :=
  ∃ i n tail, c.name = some i ∧ (some i, Msg.connect (id i) tail) ∈ done ∧ Open (atoi (id i)) n p m ∧
    writesTo p m.log = (sent (id i) (done.map Prod.snd)).map (padded bufSz) ∧
    Serves c (sent (id i) (done.map Prod.snd))

variable {done todo : List (Letter ι)} {net : List (Option ι × List CChar)} {m m' : Master} {x : Letter ι}

private theorem Mail.sender_of_connect (hmail : Mail id done (x :: todo) net m) {id' tail : List CChar}
    (hx : x.2 = .connect id' tail) : ∃ i, x.1 = some i ∧ id' = id i := by
  have hsender := hmail.sender x (List.mem_append_right _ List.mem_cons_self)
  rw [hx] at hsender
  obtain ⟨i, hi, heq⟩ := Option.map_eq_some_iff.1 hsender.symm
  exact ⟨i, hi, heq.symm⟩

private theorem sent_round (hquit : ∀ i, quit ∉ sent (id i) ((done ++ x :: todo).map Prod.snd)) (i : ι) :
    quit ∉ sent (id i) [x.2] ∧
      sent (id i) ((done ++ [x]).map Prod.snd) = sent (id i) (done.map Prod.snd) ++ sent (id i) [x.2] := by
  have hq := hquit i
  rw [List.map_append] at hq
  have hdone : quit ∉ sent (id i) (done.map Prod.snd) :=
    fun h => hq ((sent_initial (id i) _ _).subset h)
  refine ⟨fun h => hq ?_, by rw [List.map_append, sent_append hdone]; rfl⟩
  rw [sent_append hdone]
  exact List.mem_append_right _ ((sent_initial (id i) [x.2] (todo.map Prod.snd)).subset h)

variable (hid : Ids id) (hmail : Mail id done (x :: todo) net m)
include hid hmail

/-- The connect of a client comes first and comes once. -/
private theorem Mail.no_client {i : ι} {tail : List CChar} (hx : x.2 = .connect (id i) tail) :
    ∀ y ∈ done, y.1 ≠ some i := by
  have hfirst := hmail.session.connectsFirst
  rw [List.map_append, List.map_cons, hx] at hfirst
  intro y hy hyi
  refine hfirst.split.2.1 y.2 (List.mem_map_of_mem hy) ?_
  exact (client_eq_iff hid (hmail.sender y (List.mem_append_left _ hy))).2 hyi

/-- The pipe of a client in a round. -/
theorem reads_round (hquit : ∀ i, quit ∉ sent (id i) ((done ++ x :: todo).map Prod.snd)) {p : Nat}
    {c : ChildProcess ι} (h : Reads id done m p c)
    (hstep : m.step (.ok, x.2.datagram) = some m') : Reads id (done ++ [x]) m' p c := by
  obtain ⟨i, n, tail, hname, hmem, hopen, hwrites, hserves⟩ := h
  have hwf : x.2.WellFormed := hmail.session.wellFormed x.2 (by simp)
  have hsender := hmail.sender x (List.mem_append_right _ List.mem_cons_self)
  have hconnect : ∀ id' tail', x.2 = .connect id' tail' → atoi id' ≠ atoi (id i) := by
    intro id' tail' hx heq
    obtain ⟨j, -, rfl⟩ := hmail.sender_of_connect hx
    obtain rfl := hid.distinct j i heq
    exact hmail.no_client hid hx _ hmem rfl
  obtain ⟨hqx, hsent⟩ := sent_round hquit i
  obtain ⟨s', hs', heff⟩ := hopen.step (hid.ok i).2.1 hwf hconnect
  obtain rfl : s' = m' := Option.some.inj (hs'.symm.trans hstep)
  refine ⟨i, n, tail, hname, List.mem_append_left _ hmem, ?_⟩
  rw [hsent]
  rcases heff with ⟨id', payload, tail', hx, heq, hw, -, ho⟩ | ⟨hother, hw, ho⟩
  · obtain ⟨j, -, hj⟩ := Option.map_eq_some_iff.1 (hsender.symm.trans (by rw [hx]; rfl : x.2.client = some id'))
    obtain rfl : j = i := hid.distinct j i (by rw [hj, heq])
    have hone : sent (id j) [x.2] = [payload] := by
      rw [hx, sent, if_pos hj.symm]
      split <;> rfl
    rw [hone] at hqx ⊢
    refine ⟨ho fun hq => hqx (by rw [hq]; exact List.mem_singleton_self _), ?_, hserves.append _⟩
    rw [hw, hwrites, List.map_append]
    rfl
  · have hnone : sent (id i) [x.2] = [] := by
      cases hx : x.2 with
      | data id' payload tail' =>
        rw [sent, if_neg fun heq => hother id' payload tail' hx (by rw [heq])]
        rfl
      | _ => rfl
    rw [hnone, List.append_nil]
    exact ⟨ho, hw.trans hwrites, hserves⟩

/-- The pipe that a connect has made. -/
private theorem reads_new (hstep : m.step (.ok, x.2.datagram) = some m') (hpipes : m'.pipes = m.pipes + 1)
    (hnum : 0 ≤ m'.num) {id' tail : List CChar} (hx : x.2 = .connect id' tail) :
    Reads id (done ++ [x]) m' m.pipes (.new x.1) := by
  obtain ⟨i, hi, rfl⟩ := hmail.sender_of_connect hx
  have hlist : (done ++ x :: todo).map Prod.snd = done.map Prod.snd ++ .connect (id i) tail :: todo.map Prod.snd := by
    rw [List.map_append, List.map_cons, hx]
  obtain ⟨s₁, s₂, hs₁, hs₂, -, ⟨-, hneg⟩ | ⟨-, k, -, -, hopen, hnone⟩⟩ := hmail.session.opens hlist
  · obtain rfl := Option.some.inj (hs₁.symm.trans hmail.master)
    rw [← hx, hstep, Option.some.injEq] at hs₂
    rw [hs₂, hneg] at hnum
    omega
  · obtain rfl := Option.some.inj (hs₁.symm.trans hmail.master)
    rw [← hx, hstep, Option.some.injEq] at hs₂
    subst hs₂
    have hsent : sent (id i) ((done ++ [x]).map Prod.snd) = [] := by
      rw [List.map_append, sent_append_of_no_client, List.map_singleton, hx]
      · rfl
      · intro y hy
        obtain ⟨z, hz, rfl⟩ := List.mem_map.1 hy
        rw [Ne, client_eq_iff hid (hmail.sender z (List.mem_append_left _ hz))]
        exact hmail.no_client hid hx z hz
    refine ⟨i, k, tail, hi, ?_, hopen, ?_, ?_⟩
    · rw [← hx, ← hi]
      exact List.mem_append_right _ (List.mem_singleton_self _)
    · rw [hsent]
      exact hnone
    · rw [hsent]
      exact serves_new x.1

end Children

/-! ### Whole runs -/

section Runs

variable {ι : Type} {id : ι → List CChar}

/-- The letters explain the state. -/
structure Books (id : ι → List CChar) (done todo : List (Letter ι)) (s : System ι) : Prop where
  mail : Mail id done todo s.net s.master
  posted : ∀ i, Posted id i (s.client i) (done ++ todo)
  answers : ∀ i, ∀ data ∈ s.answers i, data.headD 0 = keyA
  reads : ∀ p < s.master.pipes, Reads id done s.master p (s.child p)

variable {done todo : List (Letter ι)} {s t : System ι}

private theorem books_start (id : ι → List CChar) : Books id [] [] (System.start : System ι) where
  mail := ⟨rfl, rfl, ⟨by simp, by simp, trivial⟩, by simp⟩
  posted i := ⟨by simp, by simp [System.start], fun _ => ⟨rfl, rfl⟩, by simp [System.start], by simp [System.start],
    by simp [System.start]⟩
  answers := by simp [System.start]
  reads p hp := absurd hp (Nat.not_lt_zero p)

theorem Books.connected (h : Books id done todo s) {i : ι} (hi : (s.client i).stage ≠ .start) :
    ∃ tail, .connect (id i) tail ∈ (done ++ todo).map Prod.snd := by
  obtain ⟨tail, hmem⟩ := (h.posted i).connected hi
  exact ⟨tail, List.mem_map.2 ⟨_, hmem, rfl⟩⟩

/-- The key is the first thing that a child can read. -/
private theorem Books.head_sent (h : Books id done todo s) (i : ι) :
    ∀ payload ∈ (sent (id i) (done.map Prod.snd)).head?, payload = cstr [keyB] := by
  intro payload hpayload
  obtain ⟨rest, hrest⟩ := List.head?_eq_some_iff.1 hpayload
  have hinit := sent_initial (id i) (done.map Prod.snd) (todo.map Prod.snd)
  rw [← List.map_append, hrest] at hinit
  rcases (h.posted i).sent_cases with ⟨hnil, -⟩ | ⟨-, -, payloads, hsent, -⟩
  · rw [hnil] at hinit
    exact absurd (List.prefix_nil.1 hinit) (List.cons_ne_nil _ _)
  · rw [hsent] at hinit
    exact (List.cons_prefix_cons.1 hinit).1

private theorem books_hello (hid : Ids id) (h : Books id done todo s) {tail : List CChar} (htail : NulTail tail) :
    Books id done (todo ++ [(none, .hello tail)]) { s with net := s.net ++ [(none, Udp.hello ++ tail)] } where
  mail := mail_post (x := (none, .hello tail)) hid h.mail htail rfl trivial
  posted j := by
    rw [← List.append_assoc]
    exact posted_other (x := (none, .hello tail)) hid (h.posted j) rfl (by simp)
  answers := h.answers
  reads := h.reads

private theorem books_round (hid : Ids id) {x : Letter ι} (h : Books id done (x :: todo) s)
    (ht : ({ s with net := todo.map fun x => (x.1, x.2.datagram) } : System ι).round x.1 x.2.datagram = some t) :
    Books id (done ++ [x]) todo t := by
  rw [System.round, Option.map_eq_some_iff] at ht
  obtain ⟨m', hstep, rfl⟩ := ht
  have hquit : ∀ i, quit ∉ sent (id i) ((done ++ x :: todo).map Prod.snd) := fun i => (h.posted i).quit_notMem
  have hassoc : done ++ [x] ++ todo = done ++ x :: todo := by simp
  refine ⟨mail_round h.mail hstep, by rw [hassoc]; exact h.posted, h.answers, ?_⟩
  intro p hp
  rcases step_pipes (h.mail.session.wellFormed x.2 (by simp)) hstep with hpipes | ⟨hpipes, hnum, id', tail, hx⟩
  · simp only [hpipes, if_true]
    exact reads_round hid h.mail hquit (h.reads p (by rwa [← hpipes])) hstep
  · have hgrow : m'.pipes ≠ s.master.pipes := by
      rw [show m'.pipes = s.master.pipes + 1 from hpipes]
      exact Nat.succ_ne_self _
    simp only [hgrow, if_false]
    by_cases hnew : p = s.master.pipes
    · subst hnew
      rw [Function.update_self]
      exact reads_new hid h.mail hstep hpipes hnum hx
    · have hold : p < s.master.pipes := by
        have hp' : p < m'.pipes := hp
        rw [show m'.pipes = s.master.pipes + 1 from hpipes] at hp'
        omega
      rw [Function.update_of_ne hnew]
      exact reads_round hid h.mail hquit (h.reads p hold) hstep

/-- A child of a client, and the children of the others, when the child of one pipe has moved. -/
private theorem books_child (h : Books id done todo s) {p : Nat} {c : ChildProcess ι} {answers : ι → List (List CChar)}
    (hanswers : ∀ i, ∀ data ∈ answers i, data.headD 0 = keyA)
    (hc : Reads id done s.master p (s.child p) → Reads id done s.master p c) :
    Books id done todo { s with child := Function.update s.child p c, answers := answers } where
  mail := h.mail
  posted := h.posted
  answers := hanswers
  reads q hq := by
    by_cases hqp : q = p
    · subst hqp
      simp only [Function.update_self]
      exact hc (h.reads q hq)
    · simp only [Function.update_of_ne hqp]
      exact h.reads q hq

variable [DecidableEq ι]

/-- A client sends a message. -/
private theorem books_post (hid : Ids id) (h : Books id done todo s) {i : ι} {c : Client} {m : Msg}
    {answers : ι → List (List CChar)} (hwf : m.WellFormed) (hm : m.client = some (id i))
    (hfollow : MayFollow ((done ++ todo).map Prod.snd) m) (hc : Posted id i c (done ++ todo ++ [(some i, m)]))
    (hanswers : ∀ j, answers j ⊆ s.answers j) :
    Books id done (todo ++ [(some i, m)]) { s with
      client := Function.update s.client i c, net := s.net ++ [(some i, m.datagram)], answers := answers } where
  mail := mail_post (x := (some i, m)) hid h.mail hwf hm hfollow
  posted j := by
    rw [← List.append_assoc]
    by_cases hj : j = i
    · subst hj
      simpa only [Function.update_self] using hc
    · simp only [Function.update_of_ne hj]
      exact posted_other (x := (some i, m)) hid (h.posted j) hm fun heq => hj (Option.some.inj heq).symm
  answers j data hdata := h.answers j data (hanswers j hdata)
  reads := h.reads

/-- A client sends a text. -/
private theorem books_text (hid : Ids id) (h : Books id done todo s) {i : ι} (hstage : (s.client i).stage = .ready)
    {text : Text} {payload : List CChar} (hcarried : text.Carried payload) {exits : Bool}
    (hexits : text.Exits → exits = true) {tail : List CChar} (htail : NulTail tail) :
    Books id done (todo ++ [(some i, .data (id i) payload tail)])
      (s.send i text (Msg.data (id i) payload tail).datagram exits) :=
  books_post hid h ⟨hid.ok i, hcarried.nul_notMem, hcarried.length_lt, htail⟩ rfl
    (h.connected (by rw [hstage]; simp)) (posted_text (h.posted i) hstage hcarried hexits tail)
    fun _ => List.Subset.refl _

/-- A client connects: the first message with its id. -/
private theorem books_connect (hid : Ids id) (h : Books id done todo s) {i : ι}
    (ht : s.step id (.connect i) = some t) : ∃ done todo, Books id done todo t := by
  simp only [System.step] at ht
  split at ht
  · rename_i hstage
    cases ht
    rw [connect_datagram (hid.ok i).1 (hid.nul i)]
    refine ⟨_, _, books_post hid h (m := .connect (id i) []) ⟨hid.ok i, by simp [NulTail]⟩ rfl ?_
      (posted_connect (h.posted i) hstage) fun _ => List.Subset.refl _⟩
    intro tail hmem
    obtain ⟨y, hy, hyx⟩ := List.mem_map.1 hmem
    refine (h.posted i).start hstage y hy ?_
    rw [← client_eq_iff hid (h.mail.sender y hy), hyx]
    rfl
  · cases ht

/-- A client answers with its half of the key. -/
private theorem books_key (hid : Ids id) (h : Books id done todo s) {i : ι}
    (ht : s.step id (.key i) = some t) : ∃ done todo, Books id done todo t := by
  simp only [System.step] at ht
  split at ht
  · rename_i data rest hstage hanswers
    cases ht
    have hA : data.headD 0 = keyA := h.answers i data (by rw [hanswers]; exact List.mem_cons_self)
    obtain ⟨tail, htail, hdatagram⟩ := snprintf2_bufSz (hid.ok i).1 (hid.nul i) [keyB]
    have hshort : (cstr [keyB]).take (bufSz - idSz) = cstr [keyB] := by decide
    rw [keyDatagram, hdatagram, hshort, hA, genCloseKeyClient_keyA]
    refine ⟨_, _, books_post hid h (m := .data (id i) (cstr [keyB]) tail) ⟨hid.ok i, by decide, by decide, htail⟩ rfl
      (h.connected (by rw [hstage]; simp)) (posted_key (h.posted i) hstage tail) ?_⟩
    intro j
    by_cases hj : j = i
    · subst hj
      rw [Function.update_self, hanswers]
      exact List.subset_cons_self data rest
    · rw [Function.update_of_ne hj]
      exact List.Subset.refl _
  · cases ht

/-- A client passes on a line, or keeps a `broadcast` to itself. -/
private theorem books_line (hid : Ids id) (h : Books id done todo s) {i : ι} {l beyond : List CChar}
    (hx : (Action.line i l beyond).Plain) (ht : s.step id (.line i l beyond) = some t) :
    ∃ done todo, Books id done todo t := by
  simp only [System.step] at ht
  split at ht
  · rename_i hstage
    rw [((h.posted i).ready (.inl hstage)).1] at ht
    split at ht
    · cases ht
      exact ⟨done, todo, h⟩
    · rename_i datagram quits hsender
      cases ht
      obtain ⟨tail, htail, rfl⟩ := sender_datagram (hid.ok i).1 (hid.nul i) hsender
      have hcarried : (Text.line l).Carried (linePayload sessionKey l beyond) := by
        refine ⟨hx, ?_, beyond, rfl⟩
        by_contra hbroadcast
        have hlen : l.length ≤ bufSz := hx.1.trans (by decide)
        have hcmp := (strncmp_broadcast_iff hlen).2 hbroadcast
        rw [← typed_of_le hx.1] at hcmp
        simp only [sender] at hsender
        rw [← typed, if_pos hcmp] at hsender
        cases hsender
      have hwf : (Msg.data (id i) (linePayload sessionKey l beyond) tail).WellFormed :=
        ⟨hid.ok i, hcarried.nul_notMem, hcarried.length_lt, htail⟩
      have hquits := (payload_of_sender hwf ⟨_, _, rfl⟩ (hid.nul i) hsender).2
      refine ⟨_, _, books_text hid h hstage hcarried ?_ htail⟩
      rintro ⟨l', hl, hq⟩
      cases hl
      exact hquits.2 hq
  · cases ht

/-- A client that is interrupted says "quit". -/
private theorem books_interrupt (hid : Ids id) (h : Books id done todo s) {i : ι}
    (ht : s.step id (.interrupt i) = some t) : ∃ done todo, Books id done todo t := by
  simp only [System.step] at ht
  split at ht
  · rename_i hstage
    cases ht
    obtain ⟨tail, htail, hdatagram⟩ := snprintf2_bufSz (hid.ok i).1 (hid.nul i) quitCmd
    have hshort : (cstr quitCmd).take (bufSz - idSz) = quitCmd := by decide
    rw [interrupted, hdatagram, hshort]
    exact ⟨_, _, books_text hid h hstage (show Text.Carried .interrupt quitCmd from rfl) (fun _ => rfl) htail⟩
  · cases ht

/-- The master receives the next datagram. -/
private theorem books_master (hid : Ids id) (h : Books id done todo s) (ht : s.step id .master = some t) :
    ∃ done todo, Books id done todo t := by
  simp only [System.step] at ht
  split at ht
  · rename_i name datagram rest hnet
    have hmap := h.mail.net
    rw [hnet] at hmap
    cases todo with
    | nil => cases hmap
    | cons y todo =>
      simp only [List.map_cons, List.cons.injEq, Prod.mk.injEq] at hmap
      obtain ⟨⟨rfl, rfl⟩, rfl⟩ := hmap
      exact ⟨_, _, books_round hid h ht⟩
  · cases ht

/-- A child sends its half of the key to its client. -/
private theorem books_greet (h : Books id done todo s) {p : Nat} (ht : s.step id (.greet p) = some t) :
    ∃ done todo, Books id done todo t := by
  simp only [System.step] at ht
  split at ht
  · rename_i hp
    cases ht
    refine ⟨done, todo, books_child h ?_ ?_⟩
    swap
    · rintro ⟨i, n, tail, hname, hmem, hopen, hwrites, hserves⟩
      exact ⟨i, n, tail, hname, hmem, hopen, hwrites, hserves.key, hserves.commands⟩
    have hhead : (crypto 0 (padded bufSz [keyA])).headD 0 = keyA := by decide
    intro i data hdata
    cases hname : (s.child p).name with
    | none =>
      rw [hname] at hdata
      exact h.answers i data hdata
    | some j =>
      rw [hname] at hdata
      by_cases hij : i = j
      · subst hij
        simp only [Function.update_self, List.mem_append, List.mem_singleton] at hdata
        rcases hdata with hdata | rfl
        · exact h.answers i data hdata
        · exact hhead
      · simp only [Function.update_of_ne hij] at hdata
        exact h.answers i data hdata
  · cases ht

/-- A child reads a buffer from its pipe. -/
private theorem books_read (h : Books id done todo s) {p : Nat} {bashWork : Bool} {beyond : List CChar}
    (ht : s.step id (.read p bashWork beyond) = some t) : ∃ done todo, Books id done todo t := by
  simp only [System.step] at ht
  split at ht
  · rename_i hp
    split at ht
    · rename_i data hdata
      cases ht
      refine ⟨done, todo, books_child h h.answers ?_⟩
      rintro ⟨i, n, tail, hname, hmem, hopen, hwrites, hserves⟩
      rw [hwrites] at hdata
      refine ⟨i, n, tail, hname, hmem, hopen, hwrites, ?_⟩
      exact serves_read hserves (h.head_sent i) hdata hp.2.2 bashWork beyond
    · cases ht
  · cases ht

/-- Every step of the system. -/
theorem books_step (hid : Ids id) (h : Books id done todo s) {x : Action ι} (hx : x.Plain)
    (ht : s.step id x = some t) : ∃ done todo, Books id done todo t := by
  cases x with
  | connect i => exact books_connect hid h ht
  | key i => exact books_key hid h ht
  | line i l beyond => exact books_line hid h hx ht
  | interrupt i => exact books_interrupt hid h ht
  | hello tail =>
    cases ht
    exact ⟨_, _, books_hello hid h hx⟩
  | master => exact books_master hid h ht
  | greet p => exact books_greet h ht
  | read p bashWork beyond => exact books_read h ht

/-- Any number of clients with different ids, in any order of all their steps, those of the master and those of the
children: every child serves one client and no client has two children; the child has the key of its client; and what it
executes is what its client has typed, line by line and in this order, up to some line.  A child that has exited, or one
that has read everything when no datagram is under way, has executed all of it. -/
theorem commands_arrive {id : ι → List CChar} (hid : Ids id) {as : List (Action ι)} (hplain : ∀ x ∈ as, x.Plain)
    (hrun : run (System.step id) .start as = some t) {p : Nat} (hp : p < t.master.pipes) :
    ∃ i, (t.child p).name = some i ∧ (∀ q < t.master.pipes, (t.child q).name = some i → q = p) ∧
      ((t.child p).state ≠ .key → (t.child p).K = (t.client i).K) ∧
      (∃ texts, texts <+: (t.client i).texts ∧ List.Forall₂ Text.Arrives texts (t.child p).commands) ∧
      ((t.child p).state = .exited → (t.client i).stage = .left ∧
        List.Forall₂ Text.Arrives (t.client i).texts (t.child p).commands) ∧
      (t.net = [] → (t.child p).reads = (writesTo p t.master.log).length →
        List.Forall₂ Text.Arrives (t.client i).texts (t.child p).commands) := by
  have hbooks : ∃ done todo, Books id done todo t := by
    have hstep : ∀ (s : System ι) (x : Action ι) (u : System ι), (∃ done todo, Books id done todo s) → x.Plain →
        s.step id x = some u → ∃ done todo, Books id done todo u := by
      rintro s x u ⟨done, todo, h⟩ hx hu
      exact books_step hid h hx hu
    exact run_invariant_of_good hstep ⟨[], [], books_start id⟩ (.of_mem hplain) hrun
  obtain ⟨done, todo, h⟩ := hbooks
  obtain ⟨i, n, tail, hname, hmem, hopen, hwrites, hserves⟩ := h.reads p hp
  refine ⟨i, hname, ?_, ?_⟩
  · intro q hq hqname
    obtain ⟨j, k, -, hjname, -, hjopen, -⟩ := h.reads q hq
    obtain rfl : j = i := Option.some.inj (hjname.symm.trans hqname)
    obtain rfl := hopen.alone k hjopen.slot
    exact Option.some.inj (hjopen.pipe.symm.trans hopen.pipe)
  have hinit := sent_initial (id i) (done.map Prod.snd) (todo.map Prod.snd)
  rw [← List.map_append] at hinit
  have hdrained : t.net = [] → sent (id i) (done.map Prod.snd) = sent (id i) ((done ++ todo).map Prod.snd) := by
    intro hnet
    rw [h.mail.net, List.map_eq_nil_iff] at hnet
    rw [hnet, List.append_nil]
  by_cases hstate : (t.child p).state = .key
  · obtain ⟨hreads, hcommands⟩ := hserves.key hstate
    rw [hcommands, hstate, hreads, hwrites]
    refine ⟨by simp, ⟨[], List.nil_prefix, .nil⟩, by simp, fun hnet hlen => ?_⟩
    rw [List.length_map, hdrained hnet, eq_comm, List.length_eq_zero_iff] at hlen
    rcases (h.posted i).sent_cases with ⟨-, htexts⟩ | ⟨-, -, payloads, hsent, -⟩
    · rw [htexts]
      exact .nil
    · rw [hsent] at hlen
      cases hlen
  · obtain ⟨hK, read, unread, hpayloads, hreads, hall, hexited⟩ := hserves.commands hstate
    rw [hpayloads] at hinit
    rcases (h.posted i).sent_cases with ⟨hnil, -⟩ | ⟨hstage, hclient, payloads, hsent, hcarried⟩
    · rw [hnil] at hinit
      exact absurd (List.prefix_nil.1 hinit) (List.cons_ne_nil _ _)
    rw [hsent] at hinit
    obtain ⟨rest, rfl⟩ := (List.cons_prefix_cons.1 hinit).2
    rw [List.append_assoc] at hcarried
    obtain ⟨texts, texts', htexts, hread, hunread⟩ := exists_append_of_forall₂ hcarried
    have harrive : List.Forall₂ Text.Arrives texts (t.child p).commands := by
      refine forall₂_comp ?_ hread hall
      rintro text payload _ hcarries ⟨beyond, rfl⟩
      exact hcarries.arrives beyond
    have hwhole : unread ++ rest = [] → List.Forall₂ Text.Arrives (t.client i).texts (t.child p).commands := by
      intro hnone
      rw [hnone] at hunread
      cases hunread
      rwa [htexts, List.append_nil]
    refine ⟨fun _ => hK.trans hclient.symm, ⟨texts, ⟨texts', htexts.symm⟩, harrive⟩, fun hex => ?_, fun hnet hlen => ?_⟩
    · -- the text that made it exit is the last one of its client
      obtain ⟨init, payload, rfl, hq⟩ := hexited hex
      obtain ⟨texts₁, texts₂, rfl, -, hlast⟩ := exists_append_of_forall₂ hread
      cases hlast with
      | cons hcarries hnil =>
        rename_i text _
        cases hnil
        have hexits : text.Exits := hcarries.quits_iff.1 hq
        have hend : texts' = [] := by
          by_contra hne
          refine (h.posted i).exits text ?_ hexits
          rw [htexts, List.dropLast_append_of_ne_nil hne]
          exact List.mem_append_left _ (List.mem_append_right _ (List.mem_singleton_self _))
        subst hend
        refine ⟨hstage.resolve_left fun hready => ?_, hwhole ?_⟩
        · refine (h.posted i).stays hready text ?_ hexits
          rw [htexts, List.append_nil]
          exact List.mem_append_right _ (List.mem_singleton_self _)
        · cases hu : unread ++ rest with
          | nil => rfl
          | cons y ys =>
            rw [hu] at hunread
            cases hunread
    · apply hwhole
      have hsame := hdrained hnet
      rw [hpayloads, hsent, List.cons.injEq, and_iff_right rfl] at hsame
      rw [hreads, hwrites, hpayloads, List.length_map, List.length_cons, List.length_append] at hlen
      have hunread_nil : unread = [] := List.eq_nil_of_length_eq_zero (by omega)
      have hrest_nil : rest = [] := List.append_right_eq_self.1 hsame.symm
      rw [hunread_nil, hrest_nil]
      rfl

/-- Two clients connect, and the line of the first one arrives. -/
theorem commands_arrive_two : ∃ t : System Bool,
    run (System.step fun i => List.replicate 9 (if i then chr '2' else chr '1')) .start
      [.connect false, .connect true, .master, .greet 0, .key false, .master, .line false [chr 'l', chr 's'] [0],
        .master, .read 0 false [], .master, .read 0 true []] = some t ∧
    ∃ i, (t.child 0).name = some i ∧ List.Forall₂ Text.Arrives (t.client i).texts (t.child 0).commands := by
  have hpipes : (run (System.step fun i => List.replicate 9 (if i then chr '2' else chr '1')) .start
      [.connect false, .connect true, .master, .greet 0, .key false, .master, .line false [chr 'l', chr 's'] [0],
        .master, .read 0 false [], .master, .read 0 true []]).map (fun t => (t.master.pipes, t.net.length,
          (t.child 0).reads, (writesTo 0 t.master.log).length)) = some (2, 0, 2, 2) := by
    decide +kernel
  obtain ⟨t, hrun, ht⟩ := Option.map_eq_some_iff.1 hpipes
  simp only [Prod.mk.injEq] at ht
  obtain ⟨i, hname, -, -, -, -, hall⟩ := commands_arrive (p := 0) ⟨by decide, by decide, by decide⟩ (by decide) hrun
    (by rw [ht.1]; decide)
  exact ⟨t, hrun, i, hname, hall (List.eq_nil_of_length_eq_zero ht.2.1) (by rw [ht.2.2.1, ht.2.2.2])⟩

end Runs

end UnixTasks.Udp
