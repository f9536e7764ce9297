import UnixTasks.ShStack.Lifetime

/-!
# The stacks under a key, one after another

The kernel and the pointers of all processes stand for the stacks that have been under the key, of which the last one
is a bounded last-in-first-out list.

* (`World.Shows`) the world shows the generations; each call keeps this (`use_shows`);
* (`lifetime_answers`) every sequence of calls returns what the generations answer;
* (`exists_iff_attached`) a marked segment is there exactly as long as somebody is attached to it.
-/

namespace UnixTasks.ShStack

open ActionSystem

variable {P V : Type}

/-! ### The world shows the generations -/

/-- The stack number `n`: its segment is `i + n` and its set of semaphores is `j + n`. -/
def baseOf (i j : Int) (n : Nat) (l : Lifo V) : Base := ⟨i + n, l.cap, j + n, i + n, j + n⟩

/-- The pointer of a process to the stack number `n`. -/
def PointsTo (i j : Int) (n : Nat) (q : Proc V) : Prop :=
  ∃ stack, q.stack = some stack ∧ stack.idKey = i + n ∧ stack.shStack = i + n ∧ stack.sem = j + n ∧
    (stack.wait = -1 ∨ stack.wait = 1)

/-- What is under the key. -/
def Under (i j : Int) (k : Kernel V) (gen : Nat) : Option (Lifo V) → Prop
  | none => k = ⟨none, none, i + gen, j + gen⟩
  | some l => (∃ val slot, k = (baseOf i j gen l).kernel val slot ∧ ShStack.Holds l val slot) ∧
    (baseOf i j gen l).Fits l.cap

structure World.Shows (i j : Int) (g : Generations P V) (w : World P V) : Prop where
  quiescent : ∀ p, (w.proc p).pc = .idle
  nodup : (g.att.map Prod.fst).Nodup
  le_gen : ∀ e ∈ g.att, e.2 ≤ g.gen
  lt_gen : g.cur = none → ∀ e ∈ g.att, e.2 < g.gen
  pointer : ∀ p n, (p, n) ∈ g.att → PointsTo i j n (w.proc p)
  noPointer : ∀ p, ¬ g.Holds p → (w.proc p).stack = none
  under : Under i j w.kernel g.gen g.cur
  nattch : ∀ n : Nat, w.nattch (i + n) = g.att.countP fun e => e.2 = n
  dest : ∀ id, id ∈ w.dest ↔ ∃ n : Nat, n < g.gen ∧ id = i + n ∧ ∃ p, (p, n) ∈ g.att
  nodup_dest : w.dest.Nodup

section Shows

variable [DecidableEq P] {i j : Int} {g : Generations P V} {w : World P V} {p : P} {n : Nat}

/-- A pointer to another stack than the one under the key answers to no semaphore. -/
theorem Under.gone {k : Kernel V} {gen : Nat} {cur : Option (Lifo V)} (h : Under i j k gen cur)
    (hn : cur = none ∨ n ≠ gen) {stack : StackT} (hsem : stack.sem = j + n) : Gone k stack := by
  intro m
  cases cur with
  | none => rw [show k = _ from h]; rfl
  | some l =>
    obtain ⟨⟨val, slot, rfl, -⟩, -⟩ := h
    have hne : n ≠ gen := hn.resolve_left (by simp)
    have hid : j + (gen : Int) ≠ stack.sem := by rw [hsem]; omega
    simp [Kernel.semSet, Base.kernel, baseOf, Option.filter, hid]

private theorem countP_without (hnodup : (g.att.map Prod.fst).Nodup) (hp : (p, n) ∈ g.att) (m : Nat) :
    g.att.countP (fun e => e.2 = m) = (g.without p).countP (fun e => e.2 = m) + if n = m then 1 else 0 := by
  rw [(without_perm hnodup hp).countP_eq, List.countP_cons]
  simp

/-- A process is no longer attached: one mapping less, and a marked segment without mappings is gone. -/
private theorem shmdt_shows (h : w.Shows i j g) (hp : (p, n) ∈ g.att) :
    ∃ w', w.shmdt (i + n) = (w', 0) ∧ w'.kernel = w.kernel ∧ w'.proc = w.proc ∧ w'.log = w.log ∧
      (∀ m : Nat, w'.nattch (i + m) = (g.without p).countP fun e => e.2 = m) ∧
      (∀ id, id ∈ w'.dest ↔ ∃ m : Nat, m < g.gen ∧ id = i + m ∧ ∃ q, (q, m) ∈ g.without p) ∧ w'.dest.Nodup := by
  have hcount : w.nattch (i + n) = (g.without p).countP (fun e => e.2 = n) + 1 := by
    rw [h.nattch n, countP_without h.nodup hp n, if_pos rfl]
  refine ⟨{ w with
    nattch := Function.update w.nattch (i + n) (w.nattch (i + n) - 1)
    dest := if w.nattch (i + n) = 1 then w.dest.erase (i + n) else w.dest },
    by rw [World.shmdt, if_neg (by omega)], rfl, rfl, rfl, ?_, ?_, ?_⟩
  · intro m
    by_cases hm : m = n
    · subst hm
      simp only [Function.update_self, hcount, Nat.add_sub_cancel]
    · have hne : i + (m : Int) ≠ i + n := by omega
      have hm' := countP_without h.nodup hp m
      rw [if_neg (Ne.symm hm)] at hm'
      simp only [Function.update_of_ne hne, h.nattch m, hm', Nat.add_zero]
  · intro id
    by_cases hone : w.nattch (i + n) = 1
    · -- nobody else holds a pointer to this stack
      have hnone : ∀ q, (q, n) ∉ g.without p := by
        intro q hq
        have hzero : (g.without p).countP (fun e => e.2 = n) = 0 := by omega
        exact List.countP_eq_zero.1 hzero _ hq (by simp)
      simp only [if_pos hone, h.nodup_dest.mem_erase_iff, h.dest id]
      constructor
      · rintro ⟨hne, m, hlt, rfl, q, hq⟩
        refine ⟨m, hlt, rfl, q, mem_without.2 ⟨hq, ?_⟩⟩
        rintro rfl
        exact hne (by rw [unique_pointer h.nodup hp hq])
      · rintro ⟨m, hlt, rfl, q, hq⟩
        refine ⟨?_, m, hlt, rfl, q, (mem_without.1 hq).1⟩
        intro heq
        obtain rfl : m = n := by omega
        exact hnone q hq
    · simp only [if_neg hone, h.dest id]
      have hpos : 0 < (g.without p).countP fun e => e.2 = n := by omega
      obtain ⟨⟨q', n'⟩, hq', hn'⟩ := List.countP_pos_iff.1 hpos
      obtain rfl : n' = n := of_decide_eq_true hn'
      constructor
      · rintro ⟨m, hlt, rfl, q, hq⟩
        by_cases hqp : q = p
        · subst hqp
          obtain rfl := unique_pointer h.nodup hp hq
          exact ⟨m, hlt, rfl, q', hq'⟩
        · exact ⟨m, hlt, rfl, q, mem_without.2 ⟨hq, hqp⟩⟩
      · rintro ⟨m, hlt, rfl, q, hq⟩
        exact ⟨m, hlt, rfl, q, (mem_without.1 hq).1⟩
  · by_cases hone : w.nattch (i + n) = 1
    · simp only [if_pos hone]
      exact h.nodup_dest.erase _
    · simpa only [if_neg hone] using h.nodup_dest

/-- Everything but the kernel after a process has given up its pointer. -/
private theorem shows_without {k : Kernel V} {cur : Option (Lifo V)} {gen : Nat} {nattch : Int → Nat} {dest : List Int}
    {log : List (P × LifeRet V)} (h : w.Shows i j g) (hgen : g.gen ≤ gen)
    (hlt : cur = none → ∀ e ∈ g.without p, e.2 < gen) (hunder : Under i j k gen cur)
    (hnattch : ∀ m : Nat, nattch (i + m) = (g.without p).countP fun e => e.2 = m)
    (hdest : ∀ id, id ∈ dest ↔ ∃ m : Nat, m < gen ∧ id = i + m ∧ ∃ q, (q, m) ∈ g.without p) (hnodup : dest.Nodup) :
    World.Shows i j ⟨gen, cur, g.without p⟩ ⟨k, Function.update w.proc p ⟨none, .idle⟩, nattch, dest, log⟩ where
  quiescent := forall_proc_update (fun q => q.pc = .idle) h.quiescent rfl
  nodup := nodup_without p h.nodup
  le_gen := fun e he => Nat.le_trans (h.le_gen e (List.mem_of_mem_filter he)) hgen
  lt_gen := hlt
  pointer := by
    intro q m hq
    obtain ⟨hq, hne⟩ := mem_without.1 hq
    simpa [hne] using h.pointer q m hq
  noPointer := by
    intro q hq
    by_cases hqp : q = p
    · simp [hqp]
    · have hnot : ¬ g.Holds q := fun ⟨m, hm⟩ => hq ⟨m, mem_without.2 ⟨hm, hqp⟩⟩
      simpa [hqp] using h.noPointer q hnot
  under := hunder
  nattch := hnattch
  dest := hdest
  nodup_dest := hnodup

/-- `detach_stack`. -/
theorem detach_shows (h : w.Shows i j g) (hp : g.Holds p) :
    ∃ w', w.detachStack p = some w' ∧ w'.Shows i j (g.answer p .detach).1 ∧
      w'.log = w.log ++ [(p, (g.answer p .detach).2)] := by
  obtain ⟨n, hn⟩ := hp
  obtain ⟨stack, hstack, -, haddr, -⟩ := h.pointer p n hn
  obtain ⟨w', hw', hk, hproc, hlog, hnattch, hdest, hnodup⟩ := shmdt_shows h hn
  refine ⟨{ w' with
    proc := Function.update w.proc p ⟨none, .idle⟩
    log := w.log ++ [(p, .detach 0)] }, ?_, ?_, rfl⟩
  · rw [World.detachStack, hstack, Option.map_some, haddr, hw']
    simp only [hproc, hlog]
  have hunder := h.under
  rw [← hk] at hunder
  exact shows_without h (Nat.le_refl _) (fun hcur e he => h.lt_gen hcur e (List.mem_of_mem_filter he)) hunder hnattch
    hdest hnodup

/-- `mark_destruct` of the stack under the key. -/
theorem destruct_live (h : w.Shows i j g) (hp : (p, g.gen) ∈ g.att) :
    ∃ w', w.markDestruct p = some w' ∧ w'.Shows i j ⟨g.gen + 1, none, g.without p⟩ ∧
      w'.log = w.log ++ [(p, .destruct 0)] := by
  obtain ⟨stack, hstack, hkey, haddr, hsem, -⟩ := h.pointer p _ hp
  obtain ⟨w', hw', hk, hproc, hlog, hnattch, hdest, hnodup⟩ := shmdt_shows h hp
  have hunder := h.under
  cases hcur : g.cur with
  | none => exact absurd (h.lt_gen hcur _ hp) (Nat.lt_irrefl _)
  | some l =>
    rw [hcur] at hunder
    obtain ⟨⟨val, slot, hkernel, -⟩, -⟩ := hunder
    rw [hkernel] at hk
    -- the segment was under the key, so it was not marked before
    have hnew : i + (g.gen : Int) ∉ w'.dest := by
      intro hmem
      obtain ⟨m, hlt, heq, -⟩ := (hdest _).1 hmem
      omega
    refine ⟨{ w' with
      kernel := ⟨none, none, i + (g.gen + 1 : Nat), j + (g.gen + 1 : Nat)⟩
      proc := Function.update w.proc p ⟨none, .idle⟩
      dest := if w'.nattch (i + g.gen) = 0 then w'.dest else (i + g.gen) :: w'.dest
      log := w.log ++ [(p, .destruct 0)] }, ?_, ?_, rfl⟩
    · rw [World.markDestruct, hstack, Option.map_some, haddr, hw']
      simp [World.shmRmid, World.semRmid, hk, Base.kernel, baseOf, hkey, hsem, hproc, hlog, Int.add_assoc]
    · refine shows_without h (Nat.le_succ _) ?_ rfl hnattch ?_ ?_
      · intro _ e he
        have := h.le_gen e (List.mem_of_mem_filter he)
        omega
      · intro id
        have hcount := hnattch g.gen
        by_cases hzero : w'.nattch (i + g.gen) = 0
        · -- nobody else held a pointer: the segment is destroyed at once
          rw [hzero] at hcount
          have hnone := List.countP_eq_zero.1 hcount.symm
          rw [if_pos hzero, hdest id]
          constructor
          · rintro ⟨m, hlt, rfl, q, hq⟩
            exact ⟨m, by omega, rfl, q, hq⟩
          · rintro ⟨m, hlt, rfl, q, hq⟩
            have hne : m ≠ g.gen := fun e => hnone _ hq (decide_eq_true e)
            exact ⟨m, by omega, rfl, q, hq⟩
        · rw [if_neg hzero, List.mem_cons, hdest id]
          obtain ⟨⟨q', n'⟩, hq', hn'⟩ := List.countP_pos_iff.1 (show 0 < _ by rw [← hcount]; omega)
          obtain rfl : n' = g.gen := of_decide_eq_true hn'
          constructor
          · rintro (rfl | ⟨m, hlt, rfl, q, hq⟩)
            · exact ⟨_, Nat.lt_succ_self _, rfl, q', hq'⟩
            · exact ⟨m, by omega, rfl, q, hq⟩
          · rintro ⟨m, hlt, rfl, q, hq⟩
            by_cases hm : m = g.gen
            · exact .inl (by rw [hm])
            · exact .inr ⟨m, by omega, rfl, q, hq⟩
      · split
        · exact hnodup
        · exact List.nodup_cons.2 ⟨hnew, hnodup⟩

/-- `mark_destruct` of a stack that has been destroyed before. -/
private theorem destruct_stale (h : w.Shows i j g) (hp : (p, n) ∈ g.att) (hn : (p, g.gen) ∉ g.att) :
    ∃ w', w.markDestruct p = some w' ∧ w'.Shows i j { g with att := g.without p } ∧
      w'.log = w.log ++ [(p, .destruct (if g.shared p then 0 else -1))] := by
  obtain ⟨stack, hstack, hkey, haddr, hsem, -⟩ := h.pointer p n hp
  obtain ⟨w', hw', hk, hproc, hlog, hnattch, hdest, hnodup⟩ := shmdt_shows h hp
  have hne : n ≠ g.gen := by
    rintro rfl
    exact hn hp
  have hlt : n < g.gen := Nat.lt_of_le_of_ne (h.le_gen _ hp) hne
  have hmem : i + (n : Int) ∈ w'.dest ↔ g.shared p = true := by
    rw [hdest, shared_iff h.nodup hp]
    constructor
    · rintro ⟨m, -, heq, q, hq⟩
      obtain rfl : n = m := by omega
      exact ⟨q, hq⟩
    · rintro ⟨q, hq⟩
      exact ⟨n, hlt, rfl, q, hq⟩
  have hkernel := h.under
  have hrmid : w'.shmRmid (i + n) = (w', if g.shared p then 0 else -1) ∧ w'.semRmid (j + n) = w' := by
    cases hcur : g.cur with
    | none =>
      rw [hcur] at hkernel
      simp only [World.shmRmid, World.semRmid, hk, show w.kernel = _ from hkernel, hmem, and_self]
    | some l =>
      rw [hcur] at hkernel
      obtain ⟨⟨val, slot, hkernel, -⟩, -⟩ := hkernel
      have hi : ¬ i + (g.gen : Int) = i + n := by omega
      have hj : ¬ j + (g.gen : Int) = j + n := by omega
      simp only [World.shmRmid, World.semRmid, hk, hkernel, Base.kernel, baseOf, hi, hj, if_false, hmem, and_self]
  refine ⟨{ w' with
    proc := Function.update w.proc p ⟨none, .idle⟩
    log := w.log ++ [(p, .destruct (if g.shared p then 0 else -1))] }, ?_, ?_, rfl⟩
  · rw [World.markDestruct, hstack, Option.map_some, haddr, hw']
    simp only [hkey, hsem, hrmid.1, hrmid.2, hproc, hlog]
  · have hunder := h.under
    rw [← hk] at hunder
    exact shows_without h (Nat.le_refl _) (fun hcur e he => h.lt_gen hcur e (List.mem_of_mem_filter he)) hunder hnattch
      hdest hnodup

private theorem destruct_shows (h : w.Shows i j g) (hp : g.Holds p) :
    ∃ w', w.markDestruct p = some w' ∧ w'.Shows i j (g.answer p .destruct).1 ∧
      w'.log = w.log ++ [(p, (g.answer p .destruct).2)] := by
  obtain ⟨n, hn⟩ := hp
  by_cases hlive : (p, g.gen) ∈ g.att
  · rw [Generations.answer, if_pos hlive]
    exact destruct_live h hlive
  · rw [Generations.answer, if_neg hlive]
    exact destruct_stale h hn hlive

/-! ### The other calls -/

variable [Zero V] {fuel : Nat}

/-- A call that has run, of a process that holds a pointer. -/
theorem shows_of_finish {op : Op V} {k : Kernel V} {q : Proc V} {r : Ret V} {cur : Option (Lifo V)}
    (h : w.Shows i j g) (hna : ∀ size, op ≠ .attach size) (hp : (p, n) ∈ g.att)
    (hfin : Proc.finish fuel w.kernel ⟨(w.proc p).stack, op.start⟩ = some (k, q, r)) (hidle : q.pc = .idle)
    (hq : PointsTo i j n q) (hcur : cur = none → g.cur = none) (hunder : Under i j k g.gen cur) :
    ∃ w', w.callAlone fuel p op = some w' ∧ w'.Shows i j { g with cur := cur } ∧
      w'.log = w.log ++ [(p, .call r)] := by
  refine ⟨{ w with
    kernel := k
    proc := Function.update w.proc p q
    log := w.log ++ [(p, .call r)] }, ?_, ?_, rfl⟩
  · have hcall : State.callAlone fuel ⟨w.kernel, w.proc, []⟩ (p, op) =
        some ⟨k, Function.update w.proc p q, [(p, r)]⟩ := by
      simp [State.callAlone, h.quiescent p, hfin]
    rw [World.callAlone, hcall]
    cases op with
    | attach size => exact absurd rfl (hna size)
    | _ => rfl
  · exact { h with
      quiescent := forall_proc_update (fun q => q.pc = .idle) h.quiescent hidle
      lt_gen := fun hnone => h.lt_gen (hcur hnone)
      pointer := by
        intro p' m hm
        by_cases hpp : p' = p
        · subst hpp
          rw [unique_pointer h.nodup hp hm]
          simpa using hq
        · simpa [hpp] using h.pointer p' m hm
      noPointer := by
        intro p' hp'
        have hne : p' ≠ p := by
          rintro rfl
          exact hp' ⟨n, hp⟩
        simpa [hne] using h.noPointer p' hp'
      under := hunder }

/-- A call on the stack under the key. -/
theorem live_shows {op : Op V} {l : Lifo V} (h : w.Shows i j g) (hcur : g.cur = some l) (hp : (p, g.gen) ∈ g.att)
    (hna : ∀ size, op ≠ .attach size) (hop : CallOk l.cap [p] (p, op)) :
    ∃ w', w.callAlone (fuel + 8) p op = some w' ∧ w'.Shows i j { g with cur := some (ShStack.answer l op).1 } ∧
      w'.log = w.log ++ [(p, .call (ShStack.answer l op).2)] := by
  obtain ⟨stack, hstack, hkey, haddr, hsem, hwait⟩ := h.pointer p _ hp
  have hunder := h.under
  rw [hcur] at hunder
  obtain ⟨hkernel, hfit⟩ := hunder
  have hrep : Represents (baseOf i j g.gen l) [p] l ⟨w.kernel, w.proc, []⟩ :=
    { kernel := hkernel
      quiescent := h.quiescent
      attached := by
        intro x hx
        rw [List.mem_singleton.1 hx]
        exact ⟨stack, hstack, ⟨hsem, haddr⟩, hwait⟩ }
  obtain ⟨t, ht, hrep', hlog⟩ := @callAlone_represents P V _ _ _ [p] l _ fuel (p, op) hfit hrep hop
  simp only [State.callAlone, h.quiescent p, Option.map_eq_some_iff] at ht
  obtain ⟨⟨k, q, r⟩, hfin, rfl⟩ := ht
  obtain rfl : r = (ShStack.answer l op).2 := by simpa using hlog
  have hatt : p ∈ attachedBy [p] (p, op) := by
    cases op <;> simp [attachedBy]
  obtain ⟨stack', hstack', ⟨hsem', haddr'⟩, hwait'⟩ := hrep'.attached p hatt
  have hq : q.stack = some stack' := by simpa using hstack'
  have hids := finish_ids hna hfin
  rw [hq, hstack, Option.map_some, Option.map_some, Option.some.injEq] at hids
  refine shows_of_finish h hna hp hfin ?_ ⟨stack', hq, hids.trans hkey, haddr', hsem', hwait'⟩ (by simp) ?_
  · simpa using hrep'.quiescent p
  · have hcap := answer_cap l op
    have hbase : baseOf i j g.gen (ShStack.answer l op).1 = baseOf i j g.gen l := by rw [baseOf, hcap, baseOf]
    rw [Under, hbase, hcap]
    exact ⟨hrep'.kernel, hfit⟩

/-- A call on a stack that has been destroyed. -/
private theorem stale_shows {op : Op V} (h : w.Shows i j g) (hp : (p, n) ∈ g.att) (hn : g.cur = none ∨ n ≠ g.gen)
    (hop : (∀ size, op ≠ .attach size) ∧ op ≠ .pop ∧ op ≠ .printAll)
    (hset : ∀ v tm, op = .setWait v tm → v = -1 ∨ v = 1) :
    ∃ w', w.callAlone (fuel + 8) p op = some w' ∧ w'.Shows i j g ∧ w'.log = w.log ++ [(p, .call (staleRet op))] := by
  obtain ⟨stack, hstack, hkey, haddr, hsem, hwait⟩ := h.pointer p n hp
  obtain ⟨stack', hfin, hkey', haddr', hsem', hwait'⟩ :=
    finish_gone (h.under.gone hn hsem) hwait hop hset (fuel + 4)
  rw [← hstack] at hfin
  exact shows_of_finish h hop.1 hp hfin rfl
    ⟨stack', rfl, hkey'.trans hkey, haddr'.trans haddr, hsem'.trans hsem, hwait'⟩ id h.under

omit [DecidableEq P] in
/-- The pointer that an attach returns, and the stack under the key afterwards. -/
private theorem attach_under {size : Int} {stack : Option StackT} (hi : 0 < i) (h : w.Shows i j g)
    (hok : g.UseOk p (.call (.attach size))) :
    ∃ k, Proc.finish (fuel + 8) w.kernel ⟨stack, Op.start (.attach size)⟩ =
        some (k, ⟨some ⟨i + g.gen, -1, j + g.gen, i + g.gen, ⟨0, 0⟩⟩, .idle⟩, .attach true) ∧
      Under i j k g.gen (some (g.cur.getD (Lifo.empty V size.toNat))) := by
  have hok := hok.2
  have hunder := h.under
  cases hcur : g.cur with
  | none =>
    rw [hcur] at hok hunder
    obtain ⟨hpos, hmax, hseg⟩ := hok
    obtain ⟨val, hfin, hh⟩ := @finish_attach_new V _ (i + g.gen) size (by omega) (by omega) hmax (j + g.gen) stack fuel
    have hcap : (((Lifo.empty V size.toNat).cap : Nat) : Int) = size := by
      rw [Lifo.cap_empty, Int.toNat_of_nonneg (by omega)]
    rw [show w.kernel = _ from hunder, Option.getD_none]
    refine ⟨_, hfin, ⟨val, fun _ => 0, ?_, hh⟩, ?_⟩
    · rw [baseOf, hcap]
    · exact ⟨show 0 < i + (g.gen : Int) by omega, rfl, by rw [hcap]; exact hmax, by rw [hcap]; exact hseg⟩
  | some l =>
    rw [hcur] at hok hunder
    obtain ⟨⟨val, slot, hk, hh⟩, hfit⟩ := hunder
    have hval : Function.update val 2 1 = val := by rw [← hh.mutex, Function.update_eq_self]
    refine ⟨_, ?_, ⟨val, slot, rfl, hh⟩, hfit⟩
    rw [hk, finish_attach_old hfit.shmId_pos hok.1 hok.2, hval]
    rfl

/-- An attach of a process without a pointer, and the pointer that it gets. -/
theorem attach_shows {size : Int} (hi : 0 < i) (h : w.Shows i j g) (hok : g.UseOk p (.call (.attach size))) :
    ∃ w', w.callAlone (fuel + 8) p (.attach size) = some w' ∧
      w'.Shows i j (g.answer p (.call (.attach size))).1 ∧ w'.log = w.log ++ [(p, .call (.attach true))] ∧
      (w'.proc p).stack = some ⟨i + g.gen, -1, j + g.gen, i + g.gen, ⟨0, 0⟩⟩ := by
  have hnot := hok.1
  let stack : StackT := ⟨i + g.gen, -1, j + g.gen, i + g.gen, ⟨0, 0⟩⟩
  obtain ⟨k, hfin, hunder⟩ : ∃ k, Proc.finish (fuel + 8) w.kernel ⟨(w.proc p).stack, Op.start (.attach size)⟩ =
      some (k, ⟨some stack, .idle⟩, .attach true) ∧
        Under i j k g.gen (some (g.cur.getD (Lifo.empty V size.toNat))) := attach_under hi h hok
  refine ⟨{ w with
    kernel := k
    proc := Function.update w.proc p ⟨some stack, .idle⟩
    nattch := Function.update w.nattch (i + g.gen) (w.nattch (i + g.gen) + 1)
    log := w.log ++ [(p, .call (.attach true))] }, ?_, ?_, rfl, by simp [stack]⟩
  · have hcall : State.callAlone (fuel + 8) ⟨w.kernel, w.proc, []⟩ (p, .attach size) =
        some ⟨k, Function.update w.proc p ⟨some stack, .idle⟩, [(p, .attach true)]⟩ := by
      simp [State.callAlone, h.quiescent p, hfin]
    rw [World.callAlone, hcall]
    simp [stack]
  · exact { h with
      quiescent := forall_proc_update (fun q => q.pc = .idle) h.quiescent rfl
      nodup := by
        refine List.nodup_cons.2 ⟨?_, h.nodup⟩
        intro hmem
        obtain ⟨e, he, rfl⟩ := List.mem_map.1 hmem
        exact hnot ⟨e.2, he⟩
      le_gen := by
        intro e he
        rcases List.mem_cons.1 he with rfl | he
        · exact Nat.le_refl _
        · exact h.le_gen e he
      lt_gen := by simp [Generations.answer]
      pointer := by
        intro q m hm
        rcases List.mem_cons.1 hm with heq | hm
        · obtain ⟨rfl, rfl⟩ := Prod.mk.inj heq
          exact ⟨stack, by simp, rfl, rfl, rfl, .inl rfl⟩
        · have hne : q ≠ p := fun e => hnot ⟨m, e ▸ hm⟩
          simpa [hne] using h.pointer q m hm
      noPointer := by
        intro q hq
        have hne : q ≠ p := by
          rintro rfl
          exact hq ⟨g.gen, List.mem_cons_self ..⟩
        have hq' : ¬ g.Holds q := by
          intro hholds
          obtain ⟨m, hm⟩ := hholds
          exact hq ⟨m, List.mem_cons_of_mem _ hm⟩
        simpa [hne] using h.noPointer q hq'
      under := hunder
      nattch := by
        intro m
        show Function.update w.nattch _ _ _ = List.countP _ ((p, g.gen) :: g.att)
        rw [List.countP_cons]
        by_cases hm : m = g.gen
        · subst hm
          simp [h.nattch]
        · have hne : i + (m : Int) ≠ i + g.gen := by omega
          simp [Function.update_of_ne hne, h.nattch, Ne.symm hm]
      dest := by
        intro id
        rw [h.dest id]
        constructor
        · rintro ⟨m, hlt, rfl, q, hq⟩
          exact ⟨m, hlt, rfl, q, List.mem_cons_of_mem _ hq⟩
        · rintro ⟨m, hlt, rfl, q, hq⟩
          rcases List.mem_cons.1 hq with heq | hq
          · obtain ⟨-, rfl⟩ := Prod.mk.inj heq
            exact absurd hlt (Nat.lt_irrefl _)
          · exact ⟨m, hlt, rfl, q, hq⟩ }

omit [Zero V] in
/-- A call through a pointer to the stack of today. -/
private theorem answer_of_live {op : Op V} {l : Lifo V} (hop : ∀ size, op ≠ .attach size) (hcur : g.cur = some l)
    (hlive : (p, g.gen) ∈ g.att) :
    g.answer p (.call op) = ({ g with cur := some (ShStack.answer l op).1 }, .call (ShStack.answer l op).2) := by
  cases op with
  | attach size => exact absurd rfl (hop size)
  | _ => simp only [Generations.answer, hcur, if_pos hlive]

omit [Zero V] in
/-- A call through an older pointer. -/
private theorem answer_of_stale {op : Op V} (hop : ∀ size, op ≠ .attach size) (hold : (p, g.gen) ∉ g.att) :
    g.answer p (.call op) = (g, .call (staleRet op)) := by
  cases op with
  | attach size => exact absurd rfl (hop size)
  | _ =>
    cases hcur : g.cur with
    | none => simp only [Generations.answer, hcur]
    | some l => simp only [Generations.answer, hcur, if_neg hold]

/-- One call keeps the relation and returns what the generations answer. -/
theorem use_shows (fuel : Nat) {u : Use V} (hi : 0 < i) (h : w.Shows i j g) (hok : g.UseOk p u) :
    ∃ w', w.use (fuel + 8) (p, u) = some w' ∧ w'.Shows i j (g.answer p u).1 ∧
      w'.log = w.log ++ [(p, (g.answer p u).2)] := by
  cases u with
  | detach => exact detach_shows h hok
  | destruct => exact destruct_shows h hok
  | call op =>
    by_cases hattach : ∃ size, op = .attach size
    · obtain ⟨size, rfl⟩ := hattach
      obtain ⟨w', hcall, hshows, hlog, -⟩ := @attach_shows P V _ i j g w p _ fuel size hi h hok
      exact ⟨w', hcall, hshows, hlog⟩
    have hna : ∀ size, op ≠ .attach size := fun size e => hattach ⟨size, e⟩
    have hop : op ≠ .printAll := by
      rintro rfl
      exact hok
    have hset : ∀ v tm, op = .setWait v tm → v = -1 ∨ v = 1 := by
      rintro v tm rfl
      exact hok.2
    obtain ⟨n, hn⟩ : g.Holds p := by
      cases op with
      | attach size => exact absurd rfl (hna size)
      | pop => exact ⟨_, hok⟩
      | printAll => exact absurd rfl hop
      | setWait v tm => exact hok.1
      | _ => exact hok
    by_cases hlive : (p, g.gen) ∈ g.att
    · cases hcur : g.cur with
      | none => exact absurd (h.lt_gen hcur _ hlive) (Nat.lt_irrefl _)
      | some l =>
        rw [answer_of_live hna hcur hlive]
        refine live_shows h hcur hlive hna ?_
        cases op with
        | attach size => exact absurd rfl (hna size)
        | printAll => exact absurd rfl hop
        | setWait v tm => exact ⟨List.mem_singleton.2 rfl, hset v tm rfl⟩
        | _ => exact List.mem_singleton.2 rfl
    · have hpop : op ≠ .pop := by
        rintro rfl
        exact hlive hok
      have hne : n ≠ g.gen := by
        rintro rfl
        exact hlive hn
      rw [answer_of_stale hna hlive]
      exact stale_shows h hn (.inr hne) ⟨hna, hpop, hop⟩ hset

omit [DecidableEq P] [Zero V] in
theorem noWorld_shows (i j : Int) : (noWorld P V i j).Shows i j ⟨0, none, []⟩ where
  quiescent := fun _ => rfl
  nodup := List.nodup_nil
  le_gen := by simp
  lt_gen := by simp
  pointer := by simp
  noPointer := fun _ _ => rfl
  under := by simp [noWorld, Under]
  nattch := fun _ => rfl
  dest := by simp [noWorld]
  nodup_dest := List.nodup_nil

theorem uses_show (fuel : Nat) {uses : List (P × Use V)} (hi : 0 < i) (h : w.Shows i j g) (hok : g.UsesOk uses) :
    ∃ w', run (World.use (fuel + 8)) w uses = some w' ∧ w'.log = w.log ++ g.answers uses ∧
      w'.Shows i j (g.after uses) := by
  induction uses generalizing w g with
  | nil => exact ⟨w, rfl, (List.append_nil _).symm, h⟩
  | cons c uses ih =>
    obtain ⟨p, u⟩ := c
    obtain ⟨hu, huses⟩ := hok
    obtain ⟨w₁, hw₁, hshows, hlog⟩ := use_shows fuel hi h hu
    obtain ⟨w₂, hw₂, hlog₂, hshows₂⟩ := ih hshows huses
    refine ⟨w₂, run_cons_eq_some.2 ⟨w₁, hw₁, hw₂⟩, ?_, hshows₂⟩
    rw [hlog₂, hlog, List.append_assoc]
    rfl

end Shows

/-! ### Whole sequences -/

/-- Every sequence of calls that keeps to the contract of stack.h, with any number of processes that attach, detach and
destroy, returns what the generations of bounded lists answer: after a `mark_destruct` the next attach starts with an
empty stack of the size it asks for, calls on the old one change nothing and report -1, and the two never meet. -/
theorem lifetime_answers [Zero V] [DecidableEq P] (fuel : Nat) {shmId semId : Int} (hid : 0 < shmId)
    (uses : List (P × Use V)) (hok : (⟨0, none, []⟩ : Generations P V).UsesOk uses) :
    ∃ w, run (World.use (fuel + 8)) (noWorld P V shmId semId) uses = some w ∧
      w.log = (⟨0, none, []⟩ : Generations P V).answers uses ∧
      Under shmId semId w.kernel ((⟨0, none, []⟩ : Generations P V).after uses).gen
        ((⟨0, none, []⟩ : Generations P V).after uses).cur := by
  obtain ⟨w, hrun, hlog, hshows⟩ := uses_show fuel hid (noWorld_shows shmId semId) hok
  exact ⟨w, hrun, hlog, hshows.under⟩

/-- Two processes share a stack of two slots; one destroys it while it holds a value and makes another one. -/
theorem lifetime_answers_two : ∃ w, run (World.use 8) (noWorld Bool Nat 1 1)
      [(true, .call (.attach 2)), (true, .call (.push 7)), (false, .call (.attach 1)), (true, .destruct),
        (false, .call (.push 8)), (true, .call (.attach 3)), (true, .call .getCount), (false, .call .getCount),
        (false, .destruct)] = some w ∧
    w.log = [(true, .call (.attach true)), (true, .call (.push 7 0)), (false, .call (.attach true)),
      (true, .destruct 0), (false, .call (.push 8 (-1))), (true, .call (.attach true)), (true, .call (.getCount 0)),
      (false, .call (.getCount (-1))), (false, .destruct (-1))] ∧
    Under 1 1 w.kernel 1 (some (Lifo.empty Nat 3)) := by
  refine lifetime_answers 0 (by decide) _ ?_
  simp [Generations.UsesOk, Generations.UseOk, Generations.answer, Generations.Holds, Generations.without,
    InSegment, ptrSize, segmentBytes, pageSize, semvmx, ShStack.answer, Lifo.push?, Lifo.empty]

/-- The processes that are attached to a segment. -/
def World.attached (w : World P V) (id : Int) : Set P :=
  {p | ∃ stack, (w.proc p).stack = some stack ∧ stack.shStack = id}

/-- Whatever processes attach, detach and destroy: a segment is there if it is under the key or if somebody is attached
to it, and in no other case; so a marked segment goes with its last detach and not before. -/
theorem exists_iff_attached [Zero V] [DecidableEq P] {fuel : Nat} {shmId semId : Int} (hid : 0 < shmId)
    {uses : List (P × Use V)} (hok : (⟨0, none, []⟩ : Generations P V).UsesOk uses) {w : World P V}
    (hrun : run (World.use (fuel + 8)) (noWorld P V shmId semId) uses = some w) (id : Int) :
    w.Exists id ↔ (∃ seg, w.kernel.shm = some seg ∧ seg.id = id) ∨ (w.attached id).Nonempty := by
  obtain ⟨w', hrun', -, h⟩ := uses_show fuel hid (noWorld_shows shmId semId) hok
  obtain rfl : w = w' := Option.some.inj (hrun.symm.trans hrun')
  generalize (⟨0, none, []⟩ : Generations P V).after uses = g at h
  rw [World.Exists, h.dest id]
  constructor
  · rintro (hkey | ⟨n, -, rfl, p, hp⟩)
    · exact .inl hkey
    · obtain ⟨stack, hstack, -, haddr, -⟩ := h.pointer p n hp
      exact .inr ⟨p, stack, hstack, haddr⟩
  · rintro (hkey | ⟨p, stack, hstack, rfl⟩)
    · exact .inl hkey
    · have hholds : g.Holds p := by
        by_contra hnot
        rw [h.noPointer p hnot] at hstack
        cases hstack
      obtain ⟨n, hn⟩ := hholds
      obtain ⟨stack', hstack', -, haddr, -⟩ := h.pointer p n hn
      obtain rfl : stack = stack' := Option.some.inj (hstack.symm.trans hstack')
      by_cases hlt : n < g.gen
      · exact .inr ⟨n, hlt, haddr, p, hn⟩
      · -- the pointer is to the stack under the key
        have hgen : n = g.gen := Nat.le_antisymm (h.le_gen _ hn) (Nat.le_of_not_lt hlt)
        have hunder := h.under
        cases hcur : g.cur with
        | none => exact absurd (h.lt_gen hcur _ hn) hlt
        | some l =>
          rw [hcur] at hunder
          obtain ⟨⟨val, slot, hk, -⟩, -⟩ := hunder
          exact .inl ⟨_, by rw [hk]; rfl, by rw [haddr, hgen]; rfl⟩

/-- One of two attached processes destroys the stack. -/
theorem exists_iff_attached_two : ∃ w : World Bool Nat, run (World.use 8) (noWorld Bool Nat 1 1)
      [(true, .call (.attach 2)), (false, .call (.attach 1)), (true, .destruct)] = some w ∧ w.dest = [1] ∧
    (w.Exists 1 ↔ (∃ seg, w.kernel.shm = some seg ∧ seg.id = 1) ∨ (w.attached 1).Nonempty) := by
  refine ⟨_, rfl, rfl, @exists_iff_attached Bool Nat _ _ 0 1 1 (by decide)
    [(true, .call (.attach 2)), (false, .call (.attach 1)), (true, .destruct)] ?_ _ rfl 1⟩
  simp [Generations.UsesOk, Generations.UseOk, Generations.answer, Generations.Holds, InSegment,
    ptrSize, segmentBytes, pageSize, semvmx, Lifo.empty]

end UnixTasks.ShStack
