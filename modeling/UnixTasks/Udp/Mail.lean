import Mathlib.Data.List.Forall2
import UnixTasks.Udp.System

/-!
# The datagrams on their way

The clients and the master run in any order.  The datagrams are cut into those that the master has received and those on
their way (`Mail`); what a client has sent is its key and its texts (`Posted`).

* (`mail_post`, `mail_round`) the queue of the master;
* (`posted_other`, `posted_key`, `posted_text`) the datagrams of a client.
-/

namespace UnixTasks.Udp

open CChar CString ActionSystem

/-! ### Lists of messages -/

theorem sent_append {id : List CChar} {ms : List Msg} (h : quit ∉ sent id ms) (ms' : List Msg) :
    sent id (ms ++ ms') = sent id ms ++ sent id ms' := by
  induction ms with
  | nil => rfl
  | cons m ms ih =>
    cases m with
    | data id' payload tail =>
      rw [List.cons_append, sent, sent]
      rw [sent] at h
      split at h
      · rename_i hown
        rw [List.mem_cons, not_or] at h
        have hq : payload ≠ quit := Ne.symm h.1
        rw [if_neg hq] at h
        rw [if_pos hown, if_pos hown, if_neg hq, if_neg hq, ih h.2, List.cons_append]
      · rename_i hown
        rw [if_neg hown, if_neg hown, ih h]
    | _ => exact ih h

/-- What is sent later comes later. -/
theorem sent_initial (id : List CChar) (ms ms' : List Msg) : sent id ms <+: sent id (ms ++ ms') := by
  induction ms with
  | nil => exact List.nil_prefix
  | cons m ms ih =>
    cases m with
    | data id' payload tail =>
      rw [List.cons_append, sent, sent]
      split
      · split
        · exact List.prefix_rfl
        · exact List.cons_prefix_cons.2 ⟨rfl, ih⟩
      · exact ih
    | _ => exact ih

private theorem sent_of_client_ne {id : List CChar} {m : Msg} (h : m.client ≠ some id) : sent id [m] = [] :=
  @sent_append_of_no_client id [m] (fun m' hm' => by rwa [List.mem_singleton.1 hm']) []

/-- What a client may send next. -/
def MayFollow (ms : List Msg) : Msg → Prop
  | .hello _ => True
  | .connect id _ => ∀ tail, .connect id tail ∉ ms
  | .data id _ _ => ∃ tail, .connect id tail ∈ ms

private theorem ConnectsFirst.snoc {seen : List (List CChar)} {ms : List Msg} {m : Msg} (h : ConnectsFirst seen ms)
    (hm : match m with
      | .hello _ => True
      | .connect id _ => id ∉ seen ∧ ∀ tail, .connect id tail ∉ ms
      | .data id _ _ => id ∈ seen ∨ ∃ tail, .connect id tail ∈ ms) : ConnectsFirst seen (ms ++ [m]) := by
  induction ms generalizing seen with
  | nil =>
    cases m with
    | hello _ => trivial
    | connect id _ => exact ⟨hm.1, trivial⟩
    | data id _ _ => exact ⟨hm.resolve_right (by simp), trivial⟩
  | cons m' ms ih =>
    cases m' with
    | hello _ =>
      refine ih h ?_
      cases m with
      | hello _ => trivial
      | connect _ _ => simpa using hm
      | data _ _ _ => simpa using hm
    | connect id' tail' =>
      refine ⟨h.1, ih h.2 ?_⟩
      cases m with
      | hello _ => trivial
      | connect id tail =>
        simp only [List.mem_cons, Msg.connect.injEq, not_or, not_and] at hm ⊢
        exact ⟨⟨fun heq => (hm.2 tail').1 heq rfl, hm.1⟩, fun t => (hm.2 t).2⟩
      | data id _ _ =>
        simp only [List.mem_cons, Msg.connect.injEq] at hm ⊢
        rcases hm with hm | ⟨tail, ⟨rfl, -⟩ | hm⟩
        · exact .inl (.inr hm)
        · exact .inl (.inl rfl)
        · exact .inr ⟨tail, hm⟩
    | data id' payload' tail' =>
      refine ⟨h.1, ih h.2 ?_⟩
      cases m with
      | hello _ => trivial
      | connect _ _ => simpa using hm
      | data _ _ _ => simpa using hm

private theorem connectsFirst_snoc {ms : List Msg} {m : Msg} (h : ConnectsFirst [] ms) (hm : MayFollow ms m) :
    ConnectsFirst [] (ms ++ [m]) := by
  refine h.snoc ?_
  cases m with
  | hello _ => trivial
  | connect id _ => exact ⟨List.not_mem_nil, hm⟩
  | data id _ _ => exact .inr hm

/-! ### The queue of the master -/

/-- A message with its sender. -/
abbrev Letter (ι : Type) := Option ι × Msg

section Mail

variable {ι : Type} {id : ι → List CChar}

/-- The ids of the clients are strings that the master can keep apart. -/
structure Ids (id : ι → List CChar) : Prop where
  ok : ∀ i, IdOk (id i)
  nul : ∀ i, 0 ∉ id i
  distinct : ∀ i j, atoi (id i) = atoi (id j) → i = j

/-- The master has received the letters `done`, and `todo` are on their way. -/
structure Mail (id : ι → List CChar) (done todo : List (Letter ι)) (net : List (Option ι × List CChar)) (m : Master) :
    Prop where
  net : net = todo.map fun x => (x.1, x.2.datagram)
  master : run Master.step .start (rounds (done.map Prod.snd)) = some m
  session : Session ((done ++ todo).map Prod.snd)
  sender : ∀ x ∈ done ++ todo, x.2.client = x.1.map id

variable {done todo : List (Letter ι)} {net : List (Option ι × List CChar)} {m : Master} {x : Letter ι}

theorem client_eq_iff (hid : Ids id) (hx : x.2.client = x.1.map id) {i : ι} :
    x.2.client = some (id i) ↔ x.1 = some i := by
  rw [hx, Option.map_eq_some_iff]
  constructor
  · rintro ⟨j, hj, heq⟩
    rw [hj, hid.distinct j i (by rw [heq])]
  · intro h
    exact ⟨i, h, rfl⟩

/-- A client sends a message. -/
theorem mail_post (hid : Ids id) (h : Mail id done todo net m) (hwf : x.2.WellFormed) (hx : x.2.client = x.1.map id)
    (hfollow : MayFollow ((done ++ todo).map Prod.snd) x.2) :
    Mail id done (todo ++ [x]) (net ++ [(x.1, x.2.datagram)]) m := by
  have hsender : ∀ y ∈ done ++ (todo ++ [x]), y.2.client = y.1.map id := by
    intro y hy
    rw [← List.append_assoc] at hy
    rcases List.mem_append.1 hy with hy | hy
    · exact h.sender y hy
    · rwa [List.mem_singleton.1 hy]
  have hmap : (done ++ (todo ++ [x])).map Prod.snd = (done ++ todo).map Prod.snd ++ [x.2] := by simp
  refine ⟨by rw [h.net, List.map_append]; rfl, h.master, ⟨?_, ?_, ?_⟩, hsender⟩
  · rw [hmap, List.forall_mem_append]
    exact ⟨h.session.wellFormed, by simpa using hwf⟩
  · intro m₁ h₁ m₂ h₂ id₁ hid₁ id₂ hid₂ heq
    obtain ⟨y, hy, rfl⟩ := List.mem_map.1 h₁
    obtain ⟨z, hz, rfl⟩ := List.mem_map.1 h₂
    rw [hsender y hy, Option.mem_map] at hid₁
    rw [hsender z hz, Option.mem_map] at hid₂
    obtain ⟨i, -, rfl⟩ := hid₁
    obtain ⟨j, -, rfl⟩ := hid₂
    rw [hid.distinct i j heq]
  · rw [hmap]
    exact connectsFirst_snoc h.session.connectsFirst hfollow

/-- What a round does to the number of pipes. -/
theorem step_pipes {m m' : Master} {msg : Msg} (hwf : msg.WellFormed) (hstep : m.step (.ok, msg.datagram) = some m') :
    m'.pipes = m.pipes ∨ m'.pipes = m.pipes + 1 ∧ 0 ≤ m'.num ∧ ∃ id tail, msg = .connect id tail := by
  cases msg with
  | hello tail =>
    rw [step_hello m hwf] at hstep
    cases hstep
    exact .inl rfl
  | connect id tail =>
    rw [step_connect .ok m hwf.1.1 hwf.2, Option.some.injEq] at hstep
    subst hstep
    rcases openSession_ok (atoi id) m with ⟨heq, -⟩ | ⟨k, -, -, heq⟩
    · exact .inl (by rw [heq])
    · refine .inr ⟨by rw [heq], ?_, id, tail, rfl⟩
      rw [heq]
      exact Int.natCast_nonneg k
  | data id payload tail =>
    rw [step_data .ok m hwf, Option.some.injEq] at hstep
    subst hstep
    rcases deliver_ok (s := m) hwf.1.2.2 hwf.2.1 with ⟨-, heq⟩ | ⟨k, -, -, ⟨-, heq⟩ | ⟨-, heq⟩⟩
    · exact .inl (by rw [heq])
    · exact .inl (by rw [heq])
    · exact .inl (by rw [heq])

/-- The master takes the oldest letter. -/
theorem mail_round {m' : Master} (h : Mail id done (x :: todo) net m) (hstep : m.step (.ok, x.2.datagram) = some m') :
    Mail id (done ++ [x]) todo (todo.map fun x => (x.1, x.2.datagram)) m' := by
  have hassoc : done ++ [x] ++ todo = done ++ x :: todo := by simp
  refine ⟨rfl, ?_, by rw [hassoc]; exact h.session, by rw [hassoc]; exact h.sender⟩
  have hrounds : rounds ((done ++ [x]).map Prod.snd) = rounds (done.map Prod.snd) ++ [(.ok, x.2.datagram)] := by
    simp [rounds]
  rw [hrounds, run_append, h.master]
  exact run_cons_eq_some.2 ⟨m', hstep, rfl⟩

end Mail

/-! ### What a client has sent -/

section Posted

variable {ι : Type} {id : ι → List CChar}

/-- The client exits after this text. -/
def Text.Exits (text : Text) : Prop := ∃ line, text = .line line ∧ Quits (typed line)

/-- The client `i` has sent `ms`, from the connect on: its key and its texts. -/
structure Posted (id : ι → List CChar) (i : ι) (c : Client) (ms : List (Letter ι)) : Prop where
  start : c.stage = .start → ∀ x ∈ ms, x.1 ≠ some i
  connected : c.stage ≠ .start → ∃ tail, (some i, .connect (id i) tail) ∈ ms
  waiting : c.stage = .start ∨ c.stage = .waiting → c.texts = [] ∧ sent (id i) (ms.map Prod.snd) = []
  ready : c.stage = .ready ∨ c.stage = .left → c.K = sessionKey ∧ ∃ payloads,
    sent (id i) (ms.map Prod.snd) = cstr [keyB] :: payloads ∧ List.Forall₂ Text.Carried c.texts payloads
  exits : ∀ text ∈ c.texts.dropLast, ¬ text.Exits
  stays : c.stage = .ready → ∀ text ∈ c.texts, ¬ text.Exits

variable {i : ι} {c : Client} {ms : List (Letter ι)}

/-- Before its key a client has sent nothing but its connect. -/
theorem Posted.sent_cases (h : Posted id i c ms) :
    (sent (id i) (ms.map Prod.snd) = [] ∧ c.texts = []) ∨
    ((c.stage = .ready ∨ c.stage = .left) ∧ c.K = sessionKey ∧ ∃ payloads,
      sent (id i) (ms.map Prod.snd) = cstr [keyB] :: payloads ∧ List.Forall₂ Text.Carried c.texts payloads) := by
  have hstages : (c.stage = .start ∨ c.stage = .waiting) ∨ c.stage = .ready ∨ c.stage = .left := by
    cases c.stage <;> simp
  rcases hstages with hstage | hstage
  · exact .inl ⟨(h.waiting hstage).2, (h.waiting hstage).1⟩
  · exact .inr ⟨hstage, h.ready hstage⟩

theorem Posted.quit_notMem (h : Posted id i c ms) : quit ∉ sent (id i) (ms.map Prod.snd) := by
  rcases h.sent_cases with ⟨hnil, -⟩ | ⟨-, -, payloads, hsent, hcarried⟩
  · rw [hnil]
    exact List.not_mem_nil
  · rw [hsent, List.mem_cons, not_or]
    refine ⟨by decide, fun hq => ?_⟩
    obtain ⟨k, hk, hget⟩ := List.mem_iff_getElem.1 hq
    have hk' : k < c.texts.length := by rwa [hcarried.length_eq]
    have hcarries : c.texts[k].Carried quit := hget ▸ hcarried.get hk' hk
    exact hcarries.ne_quit rfl

private theorem Posted.sent_snoc (h : Posted id i c ms) (x : Letter ι) :
    sent (id i) ((ms ++ [x]).map Prod.snd) = sent (id i) (ms.map Prod.snd) ++ sent (id i) [x.2] := by
  rw [List.map_append]
  exact sent_append h.quit_notMem _

/-- Another client, or nobody, has sent something. -/
theorem posted_other (hid : Ids id) (h : Posted id i c ms) {x : Letter ι} (hx : x.2.client = x.1.map id)
    (hne : x.1 ≠ some i) : Posted id i c (ms ++ [x]) := by
  have hsent : sent (id i) ((ms ++ [x]).map Prod.snd) = sent (id i) (ms.map Prod.snd) := by
    rw [h.sent_snoc, sent_of_client_ne (mt (client_eq_iff hid hx).1 hne), List.append_nil]
  refine ⟨?_, ?_, ?_, ?_, h.exits, h.stays⟩
  · intro hstage y hy
    rcases List.mem_append.1 hy with hy | hy
    · exact h.start hstage y hy
    · rwa [List.mem_singleton.1 hy]
  · intro hstage
    obtain ⟨tail, hmem⟩ := h.connected hstage
    exact ⟨tail, List.mem_append_left _ hmem⟩
  · rw [hsent]
    exact h.waiting
  · rw [hsent]
    exact h.ready

theorem posted_connect (h : Posted id i c ms) (hstage : c.stage = .start) :
    Posted id i { c with stage := .waiting } (ms ++ [(some i, .connect (id i) [])]) := by
  refine ⟨by simp, fun _ => ⟨[], by simp⟩, fun _ => ?_, by simp, h.exits, by simp⟩
  obtain ⟨htexts, hsent⟩ := h.waiting (.inl hstage)
  refine ⟨htexts, ?_⟩
  rw [h.sent_snoc, hsent]
  rfl

theorem posted_key (h : Posted id i c ms) (hstage : c.stage = .waiting) (tail : List CChar) :
    Posted id i { c with stage := .ready, K := sessionKey } (ms ++ [(some i, .data (id i) (cstr [keyB]) tail)]) := by
  obtain ⟨htexts, hsent⟩ := h.waiting (.inr hstage)
  obtain ⟨tail', hmem⟩ := h.connected (by rw [hstage]; simp)
  refine ⟨by simp, fun _ => ⟨tail', List.mem_append_left _ hmem⟩, by simp, fun _ => ?_, h.exits, fun _ => ?_⟩
  · refine ⟨rfl, [], ?_, ?_⟩
    · rw [h.sent_snoc, hsent]
      simp [sent]
    · rw [htexts]
      exact .nil
  · rw [htexts]
    simp

theorem posted_text (h : Posted id i c ms) (hstage : c.stage = .ready) {text : Text} {payload : List CChar}
    (hcarried : text.Carried payload) {exits : Bool} (hexits : text.Exits → exits = true) (tail : List CChar) :
    Posted id i { c with stage := if exits then .left else .ready, texts := c.texts ++ [text] }
      (ms ++ [(some i, .data (id i) payload tail)]) := by
  obtain ⟨hK, payloads, hsent, hall⟩ := h.ready (.inl hstage)
  obtain ⟨tail', hmem⟩ := h.connected (by rw [hstage]; simp)
  refine ⟨by cases exits <;> simp, fun _ => ⟨tail', List.mem_append_left _ hmem⟩, by cases exits <;> simp,
    fun _ => ?_, ?_, ?_⟩
  · refine ⟨hK, payloads ++ [payload], ?_, List.rel_append hall (.cons hcarried .nil)⟩
    rw [h.sent_snoc, hsent]
    simp [sent]
  · simp only [List.dropLast_concat]
    exact h.stays hstage
  · intro hready t ht
    rcases List.mem_append.1 ht with ht | ht
    · exact h.stays hstage t ht
    · rw [List.mem_singleton.1 ht]
      intro hex
      rw [hexits hex] at hready
      cases hready

end Posted

end UnixTasks.Udp
