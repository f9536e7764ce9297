import UnixTasks.ShStack.Script

/-!
# The output of the test program

The program makes its calls on the stack under the key, which is a bounded last-in-first-out list (`World.Has`), so that
what it prints is what its script means for that list.

* (`Program.At`) what the next instruction finds, and the words that are left of the script;
* (`handler_instr`) an instruction does what it means;
* (`main_output`) the output for every script, in any world that calls of other programs have led to.
-/

namespace UnixTasks.ShStack

open ActionSystem CString CChar Tokens

variable {P V : Type}

/-! ### The calls that the program makes -/

/-- The process holds a pointer to the stack under the key, and this is the list in it. -/
def World.Has (i j : Int) (p : P) (l : Lifo Nat) (w : World P Nat) : Prop :=
  ∃ g, w.Shows i j g ∧ g.cur = some l ∧ (p, g.gen) ∈ g.att

section Finish

variable [Zero V] {b : Base} {l : Lifo V} {val : Nat → Int} {slot : Nat → V} {stack : StackT}

/-- The loop of `print_all` reads the slots that are left, and then the mutex is released. -/
private theorem finish_printLoop (hst : b.Attached stack)
    (hslot : ∀ i : Nat, i < l.items.length → InSegment b.segSize i)
    (hmutex : val 2 = 0) (fuel : Nat) {i m : Nat} (hm : i + m = l.items.length) :
    Proc.finish (fuel + m + 1) (b.kernel val slot) ⟨some stack, .printAll (printLoop i l.items.length lockBuf)⟩ =
      some (b.kernel (Function.update val 2 1) slot, ⟨some stack, .idle⟩, .printAll 0) := by
  induction m generalizing i with
  | zero =>
    have hend : printLoop i l.items.length lockBuf = .unlock ⟨2, 1⟩ := by
      rw [printLoop, if_neg (by omega)]
      rfl
    have hop := b.semop_unlock_of_held val slot hmutex
    rw [hend]
    exact Proc.finish_ret (by simp [Proc.step, printStep, Next.resume, hst.1, hop])
  | succ m ih =>
    have hread : printLoop i l.items.length lockBuf = .read i l.items.length lockBuf := by
      rw [printLoop, if_pos (by omega)]
    have hload := Base.load_of_inSegment val slot (hslot i (by omega))
    have hstep : Proc.step (b.kernel val slot) ⟨some stack, .printAll (.read i l.items.length lockBuf)⟩ =
        some (b.kernel val slot, ⟨some stack, .printAll (printLoop (i + 1) l.items.length lockBuf)⟩, none) := by
      simp [Proc.step, printStep, Next.resume, hst.2, hload]
    rw [hread, show fuel + (m + 1) + 1 = (fuel + m + 1) + 1 by omega, Proc.finish_goto hstep]
    exact ih (by omega)

private theorem finish_printAll (hfit : b.Fits l.cap) (hst : b.Attached stack) (hh : Holds l val slot) (fuel : Nat) :
    Proc.finish (fuel + l.cap + 4) (b.kernel val slot) ⟨some stack, Op.start .printAll⟩ =
      some (b.kernel val slot, ⟨some stack, .idle⟩, .printAll 0) := by
  have hle := l.length_le
  have hslot : ∀ i : Nat, i < l.items.length → InSegment b.segSize i := fun i hi => hfit.slot (by omega) (by omega)
  have hsize : Proc.step (b.kernel val slot) ⟨some stack, .printAll .size⟩ =
      some (b.kernel val slot, ⟨some stack, .printAll .count⟩, none) := rfl
  have hcount : Proc.step (b.kernel val slot) ⟨some stack, .printAll .count⟩ =
      some (b.kernel val slot, ⟨some stack, .printAll (.lock l.items.length lockBuf)⟩, none) := by
    simp [Proc.step, printStep, Next.resume, hst.1, hh.count]
  have hlock : Proc.step (b.kernel val slot) ⟨some stack, .printAll (.lock l.items.length lockBuf)⟩ =
      some (b.kernel (Function.update val 2 0) slot,
        ⟨some stack, .printAll (printLoop 0 l.items.length lockBuf)⟩, none) := by
    have hop := b.semop_lock_of_free val slot hh.mutex
    simp [Proc.step, printStep, Next.resume, hst.1, hop]
  -- the mutex is free again
  have hval : Function.update (Function.update val 2 0) 2 1 = val := by
    rw [Function.update_idem, ← hh.mutex, Function.update_eq_self]
  have hloop := @finish_printLoop V _ b l (Function.update val 2 0) slot stack hst hslot (by simp)
    (fuel + l.cap - l.items.length) 0 l.items.length (by omega)
  rw [hval, show fuel + l.cap - l.items.length + l.items.length + 1 = fuel + l.cap + 1 by omega] at hloop
  rw [Op.start, Proc.finish_goto hsize, Proc.finish_goto hcount, Proc.finish_goto hlock]
  exact hloop

end Finish

private theorem mapM_eq_some {A B : Type} {f : A → Option B} {g : A → B} {xs : List A}
    (h : ∀ x ∈ xs, f x = some (g x)) :
    xs.mapM f = some (xs.map g) := by
  induction xs with
  | nil => rfl
  | cons x xs ih =>
    rw [List.mapM_cons, h x List.mem_cons_self, ih fun y hy => h y (List.mem_cons_of_mem _ hy)]
    rfl

section Calls

variable [DecidableEq P] {i j : Int} {p : P} {w : World P Nat} {l : Lifo Nat} {fuel : Nat}

/-- A call of the contract on the stack under the key. -/
private theorem call_has {op : Op Nat} (h : w.Has i j p l) (hna : ∀ size, op ≠ .attach size)
    (hop : CallOk l.cap [p] (p, op)) :
    ∃ w', World.call (fuel + 8) p w op = some (w', (answer l op).2) ∧ w'.Has i j p (answer l op).1 := by
  obtain ⟨g, hshows, hcur, hp⟩ := h
  obtain ⟨w', hcall, hshows', hlog⟩ := @live_shows P Nat _ i j g w p _ fuel op l hshows hcur hp hna hop
  refine ⟨w', ?_, _, hshows', rfl, hp⟩
  simp [World.call, World.use, hcall, hlog]

/-- The process that a call leaves behind. -/
private theorem call_finish {op : Op Nat} {w' : World P Nat} {r : Ret Nat} (h : World.call fuel p w op = some (w', r)) :
    ∃ r', Proc.finish fuel w.kernel ⟨(w.proc p).stack, op.start⟩ = some (w'.kernel, w'.proc p, r') := by
  obtain ⟨u, hu, hlast⟩ := Option.bind_eq_some_iff.1 h
  obtain ⟨q, r', hfin, rfl⟩ := callAlone_eq_some hu
  split at hlast
  · cases hlast
    exact ⟨r', hfin⟩
  · cases hlast

omit [DecidableEq P] in
/-- The semaphores of the stack say how long the list is and how long it may be. -/
theorem World.Has.getval (h : w.Has i j p l) :
    ∃ stack, (w.proc p).stack = some stack ∧ w.kernel.getval stack.sem 0 = l.cap ∧
      w.kernel.getval stack.sem 1 = l.items.length := by
  obtain ⟨g, hshows, hcur, hp⟩ := h
  obtain ⟨stack, hstack, -, -, hsem, -⟩ := hshows.pointer p _ hp
  have hunder := hshows.under
  rw [hcur] at hunder
  obtain ⟨⟨val, slot, hk, hh⟩, -⟩ := hunder
  have hst : stack.sem = (baseOf i j g.gen l).semId := hsem
  exact ⟨stack, hstack, by simp [hk, hst, hh.cap], by simp [hk, hst, hh.count]⟩

omit [DecidableEq P] in
/-- A push prints that it waits when the list is full. -/
private theorem waitLines_push (h : w.Has i j p l) {timeout : Option Timespec}
    (hwait : (w.proc p).stack.map StackT.waiting = some timeout) (v : Nat) :
    w.waitLines p (.push v) = if l.push? v = none then waitLines .waitsFull timeout else [] := by
  obtain ⟨stack, hstack, hsize, hcount⟩ := h.getval
  rw [hstack, Option.map_some, Option.some.injEq] at hwait
  simp only [World.waitLines, hstack, hsize, hcount, hwait, Int.natCast_inj, Lifo.push?_eq_none]

omit [DecidableEq P] in
/-- A pop prints that it waits when the list is empty. -/
private theorem waitLines_pop (h : w.Has i j p l) {timeout : Option Timespec}
    (hwait : (w.proc p).stack.map StackT.waiting = some timeout) :
    w.waitLines p .pop = if l.pop? = none then waitLines .waitsEmpty timeout else [] := by
  obtain ⟨stack, hstack, hsize, hcount⟩ := h.getval
  rw [hstack, Option.map_some, Option.some.injEq] at hwait
  simp only [World.waitLines, hstack, hcount, hwait, Int.natCast_eq_zero, List.length_eq_zero_iff, Lifo.pop?_eq_none]

omit [DecidableEq P] in
private theorem waitLines_eq_nil {op : Op Nat} (hpush : ∀ v, op ≠ .push v) (hpop : op ≠ .pop) :
    w.waitLines p op = [] := by
  unfold World.waitLines
  split
  · exact absurd rfl (hpush _)
  · exact absurd rfl hpop
  · rfl

/-- `print_all` prints the list from its first value on and changes nothing. -/
private theorem printer_has (h : w.Has i j p l) (hfuel : l.cap + 4 ≤ fuel) :
    World.printed p w = some (.all l.cap l.items.length l.items.reverse) ∧
      ∃ w', World.call fuel p w .printAll = some (w', .printAll 0) ∧ w'.Has i j p l := by
  obtain ⟨stack, hstack, hsize, hcount⟩ := h.getval
  obtain ⟨g, hshows, hcur, hp⟩ := h
  obtain ⟨stack', hstack', hkey, haddr, hsem, hwait⟩ := hshows.pointer p _ hp
  obtain rfl : stack = stack' := Option.some.inj (hstack.symm.trans hstack')
  have hunder := hshows.under
  rw [hcur] at hunder
  obtain ⟨⟨val, slot, hk, hh⟩, hfit⟩ := hunder
  have hst : (baseOf i j g.gen l).Attached stack := ⟨hsem, haddr⟩
  have hfin := finish_printAll hfit hst hh (fuel - (l.cap + 4))
  rw [show fuel - (l.cap + 4) + l.cap + 4 = fuel by omega, ← hk, ← hstack] at hfin
  have hunder : Under i j w.kernel g.gen (some l) := ⟨⟨val, slot, hk, hh⟩, hfit⟩
  constructor
  · have hslots : ((List.range l.items.length).mapM fun n : Nat => w.kernel.load stack.shStack n) =
        some l.items.reverse := by
      rw [← hh.slots]
      refine mapM_eq_some fun n hn => ?_
      have hlt := List.mem_range.1 hn
      have hle := l.length_le
      rw [hk, haddr]
      exact Base.load_of_inSegment val slot (hfit.slot (by omega) (by omega))
    simp only [World.printed, hstack, Option.bind_some, hsize, hcount, Int.toNat_natCast, hslots, Option.map_some]
  · have hna : ∀ size, (Op.printAll : Op Nat) ≠ .attach size := by simp
    obtain ⟨w', hcall, hshows', hlog⟩ :=
      shows_of_finish hshows hna hp hfin rfl ⟨stack, hstack, hkey, haddr, hsem, hwait⟩ (by simp) hunder
    refine ⟨w', ?_, _, hshows', rfl, hp⟩
    simp [World.call, World.use, hcall, hlog]

end Calls

/-! ### One instruction -/

/-- The program before an instruction: this is what the instruction finds, and these words are left of the file. -/
structure Program.At (i j : Int) (p : P) (v : View) (words : List (List CChar)) (s : Program P) : Prop where
  has : s.world.Has i j p v.list
  waiting : (s.world.proc p).stack.map StackT.waiting = some v.timeout
  input : parts isspace s.input = words
  vals : s.vals = v.vals

section Instr

variable [DecidableEq P] {i j : Int} {p : P} {v : View} {room fuel : Nat} {words : List (List CChar)} {s : Program P}

/-- The program after a call, with the mode that the pointer of the process is in then. -/
private theorem Program.call_at {op : Op Nat} {lines : Ret Nat → List Line} (h : s.At i j p v words)
    (hna : ∀ size, op ≠ .attach size) (hop : CallOk v.list.cap [p] (p, op)) {timeout : Option Timespec}
    (hwait : ∀ {k : Kernel Nat} {q : Proc Nat} {r : Ret Nat},
      Proc.finish (fuel + 8) s.world.kernel ⟨(s.world.proc p).stack, op.start⟩ = some (k, q, r) →
        q.stack.map StackT.waiting = some timeout) :
    ∃ s', s.call (fuel + 8) p op lines = some (s', false) ∧ s'.At i j p ⟨(answer v.list op).1, v.vals, timeout⟩ words ∧
      s'.out = s.out ++ s.world.waitLines p op ++ lines (answer v.list op).2 := by
  obtain ⟨w, hcall, hhas⟩ := @call_has P _ i j p _ v.list fuel op h.has hna hop
  obtain ⟨r', hfin⟩ := call_finish hcall
  refine ⟨{ s with world := w, out := s.out ++ s.world.waitLines p op ++ lines (answer v.list op).2 }, ?_,
    ⟨hhas, hwait hfin, h.input, h.vals⟩, rfl⟩
  rw [Program.call, hcall, Option.map_some]

/-- The program after a call that keeps the pointer. -/
private theorem Program.call_keeps {op : Op Nat} {lines : Ret Nat → List Line} (h : s.At i j p v words)
    (hkeeps : op.start.keepsStack = true) (hop : CallOk v.list.cap [p] (p, op)) :
    ∃ s', s.call (fuel + 8) p op lines = some (s', false) ∧
      s'.At i j p ⟨(answer v.list op).1, v.vals, v.timeout⟩ words ∧
      s'.out = s.out ++ s.world.waitLines p op ++ lines (answer v.list op).2 := by
  refine Program.call_at h ?_ hop fun hfin => ?_
  · rintro size rfl
    cases hkeeps
  · rw [finish_stack (q := ⟨_, op.start⟩) hkeeps hfin]
    exact h.waiting

private theorem pusher_at {text : List CChar} (h : s.At i j p v (text :: words)) (hfits : text.length < room) :
    ∃ s', s.pusher room (fuel + 8) p = some (s', false) ∧ s'.At i j p ((Instr.push text).run v).1 words ∧
      s'.out = s.out ++ ((Instr.push text).run v).2 := by
  obtain ⟨rest, hscan, hrest⟩ := scanWord_of_parts h.input
  have hat : ({ s with input := rest, vals := s.vals + 1 } : Program P).At i j p ⟨v.list, v.vals + 1, v.timeout⟩
      words := ⟨h.has, h.waiting, hrest, by rw [h.vals]⟩
  obtain ⟨s', hcall, hat', hout⟩ := @Program.call_keeps P _ i j p _ fuel words _ (.push s.vals) (pushLines text) hat rfl
    (List.mem_singleton.2 rfl)
  have hlines := waitLines_push h.has h.waiting s.vals
  refine ⟨s', ?_, ?_⟩
  · simp only [Program.pusher, hscan, hfits, if_true]
    exact hcall
  · rw [h.vals] at hat' hout hlines
    cases hpush : v.list.push? v.vals with
    | none =>
      rw [answer_push_of_none hpush] at hat' hout
      rw [if_pos hpush] at hlines
      simp only [Instr.run, hpush]
      refine ⟨hat', ?_⟩
      rw [hout, hlines, List.append_assoc]
      rfl
    | some l' =>
      rw [answer_push_of_some hpush] at hat' hout
      rw [if_neg (by rw [hpush]; exact Option.some_ne_none l')] at hlines
      simp only [Instr.run, hpush]
      refine ⟨hat', ?_⟩
      rw [hout, hlines, List.append_nil]
      rfl

private theorem popper_at (h : s.At i j p v words) :
    ∃ s', s.popper (fuel + 8) p = some (s', false) ∧ s'.At i j p (Instr.pop.run v).1 words ∧
      s'.out = s.out ++ (Instr.pop.run v).2 := by
  obtain ⟨s', hcall, hat, hout⟩ := @Program.call_keeps P _ i j p v fuel words _ .pop popLines h rfl
    (List.mem_singleton.2 rfl)
  have hlines := waitLines_pop h.has h.waiting
  refine ⟨s', hcall, ?_⟩
  cases hpop : v.list.pop? with
  | none =>
    rw [answer_pop_of_none hpop] at hat hout
    rw [if_pos hpop] at hlines
    simp only [Instr.run, hpop]
    refine ⟨hat, ?_⟩
    rw [hout, hlines, List.append_assoc]
    rfl
  | some vl =>
    rw [answer_pop_of_some hpop] at hat hout
    rw [if_neg (by rw [hpop]; exact Option.some_ne_none vl)] at hlines
    simp only [Instr.run, hpop]
    refine ⟨hat, ?_⟩
    rw [hout, hlines, List.append_nil]
    rfl

private theorem printer_at (h : s.At i j p v words) (hfuel : v.list.cap + 4 ≤ fuel) :
    ∃ s', s.printer fuel p = some (s', false) ∧ s'.At i j p v words ∧
      s'.out = s.out ++ [.all v.list.cap v.list.items.length v.list.items.reverse] := by
  obtain ⟨hline, w, hcall, hhas⟩ := printer_has h.has hfuel
  obtain ⟨r', hfin⟩ := call_finish hcall
  have hlines : s.world.waitLines p .printAll = [] := waitLines_eq_nil (by simp) (by simp)
  refine ⟨{ s with world := w, out := s.out ++ [.all v.list.cap v.list.items.length v.list.items.reverse] }, ?_,
    ⟨hhas, ?_, h.input, h.vals⟩, rfl⟩
  · simp [Program.printer, hline, Program.call, hcall, hlines]
  · rw [finish_stack (q := ⟨_, Op.start .printAll⟩) rfl hfin]
    exact h.waiting

/-- A `set_wait` other than with 1. -/
private theorem setter_at_plain {val : Int} (h : s.At i j p v (intText val :: words))
    (hfits : (Instr.setWait val).Fits room) :
    ∃ s', s.setter (fuel + 8) p = some (s', false) ∧ s'.At i j p ((Instr.setWait val).run v).1 words ∧
      s'.out = s.out := by
  obtain ⟨⟨hlow, hhigh⟩, hzero, hone⟩ := hfits
  obtain ⟨rest, hscan, hrest⟩ := scanInt_of_parts h.input hlow hhigh
  have hat : ({ s with input := rest } : Program P).At i j p v words := ⟨h.has, h.waiting, hrest, h.vals⟩
  by_cases hval : val = -1
  · subst hval
    obtain ⟨s', hcall, hat', hout⟩ := @Program.call_at P _ i j p v fuel words _ (.setWait (-1) ⟨0, 0⟩) (fun _ => [])
      hat (by simp) ⟨List.mem_singleton.2 rfl, .inl rfl⟩ none fun hfin => by
        obtain ⟨stack, hstack⟩ := Option.map_eq_some_iff.1 h.waiting
        rw [finish_setWait hfin, hstack.1]
        rfl
    refine ⟨s', ?_, hat', hout.trans ?_⟩
    · simp only [Program.setter, hscan, Option.getD_some, or_true, if_true]
      exact hcall
    · rw [waitLines_eq_nil (by simp) (by simp), List.append_nil, List.append_nil]
  · refine ⟨{ s with input := rest }, ?_, ?_, rfl⟩
    · simp only [Program.setter, hscan, Option.getD_some, hone, hzero, hval, if_false, or_self]
    · rw [Instr.run, if_neg hval]
      exact hat

private theorem setter_at_timeout {sec nsec : Int}
    (h : s.At i j p v (intText 1 :: intText sec :: intText nsec :: words))
    (hfits : (Instr.setTimeout sec nsec).Fits room) :
    ∃ s', s.setter (fuel + 8) p = some (s', false) ∧ s'.At i j p ((Instr.setTimeout sec nsec).run v).1 words ∧
      s'.out = s.out := by
  obtain ⟨⟨hlow, hhigh⟩, hlow', hhigh'⟩ := hfits
  obtain ⟨rest, hscan, hrest⟩ := scanInt_of_parts h.input (by decide) (by decide)
  obtain ⟨rest₁, hscan₁, hrest₁⟩ := scanInt_of_parts hrest hlow hhigh
  obtain ⟨rest₂, hscan₂, hrest₂⟩ := scanInt_of_parts hrest₁ hlow' hhigh'
  have hat : ({ s with input := rest₂ } : Program P).At i j p v words := ⟨h.has, h.waiting, hrest₂, h.vals⟩
  obtain ⟨s', hcall, hat', hout⟩ := @Program.call_at P _ i j p v fuel words _ (.setWait 1 ⟨sec, nsec⟩) (fun _ => [])
    hat (by simp) ⟨List.mem_singleton.2 rfl, .inr rfl⟩ (some ⟨sec, nsec⟩) fun hfin => by
      obtain ⟨stack, hstack⟩ := Option.map_eq_some_iff.1 h.waiting
      rw [finish_setWait hfin, hstack.1]
      rfl
  refine ⟨s', ?_, hat', hout.trans ?_⟩
  · simp only [Program.setter, hscan, Option.getD_some, if_true, hscan₁, hscan₂]
    exact hcall
  · rw [waitLines_eq_nil (by simp) (by simp), List.append_nil, List.append_nil]

private theorem letter_of_getElem? {word : List CChar} {k : Nat} {c : CChar} (h : word[k]? = some c) :
    letter word k = some c := by
  obtain ⟨hlt, rfl⟩ := List.getElem?_eq_some_iff.1 h
  rw [letter, List.getElem?_append_left hlt, h]

private theorem run_cap (v : View) (i : Instr) : (i.run v).1.list.cap = v.list.cap := by
  cases i with
  | push text =>
    cases h : v.list.push? v.vals with
    | none => simp only [Instr.run, h]
    | some l' =>
      simp only [Instr.run, h]
      exact (Lifo.push?_eq_some.1 h).2.1
  | pop =>
    cases h : v.list.pop? with
    | none => simp only [Instr.run, h]
    | some vl =>
      simp only [Instr.run, h]
      exact (Lifo.pop?_eq_some.1 h).1
  | setWait val =>
    rw [Instr.run]
    split <;> rfl
  | getSize | getCount | printAll | setTimeout | skip => rfl

section Dispatch

variable {word : List CChar}

omit [DecidableEq P] in
private theorem ne_of_head {c d : CChar} (h : word.head? = some c) (hne : c ≠ d) : word.head? ≠ some d := by
  rw [h]
  exact fun he => hne (Option.some.inj he)

private theorem handler_of_scan {rest : List CChar} (hscan : scanWord s.input = some (word, rest))
    (hlen : word.length < room) :
    handler room fuel p s = dispatch room fuel p word { s with input := rest } := by
  rw [handler, hscan]
  exact if_neg (by omega)

private theorem dispatch_get (h : word.head? = some (chr 'g')) :
    dispatch room fuel p word s = s.getter fuel p word := by
  rw [dispatch, if_neg (ne_of_head h (by decide)), if_pos h]

private theorem dispatch_set (h : word.head? = some (chr 's')) : dispatch room fuel p word s = s.setter fuel p := by
  rw [dispatch, if_neg (ne_of_head h (by decide)), if_neg (ne_of_head h (by decide)), if_pos h]

private theorem dispatch_finish (h : word.head? = some (chr 'f')) : dispatch room fuel p word s = some (s, true) := by
  rw [dispatch, if_pos h]

private theorem dispatch_detach (h : word.head? = some (chr 'd')) :
    dispatch room fuel p word s = s.detacher fuel p := by
  rw [dispatch, if_neg (ne_of_head h (by decide)), if_neg (ne_of_head h (by decide)),
    if_neg (ne_of_head h (by decide)), if_neg (ne_of_head h (by decide)), if_pos h]

private theorem dispatch_mark (h : word.head? = some (chr 'm')) : dispatch room fuel p word s = s.destroyer fuel p := by
  rw [dispatch, if_neg (ne_of_head h (by decide)), if_neg (ne_of_head h (by decide)),
    if_neg (ne_of_head h (by decide)), if_neg (ne_of_head h (by decide)), if_neg (ne_of_head h (by decide)), if_pos h]

private theorem dispatch_p {c : CChar} (h : word.head? = some (chr 'p')) (hc : letter word 1 = some c) :
    dispatch room fuel p word s =
      if c = chr 'u' then s.pusher room fuel p
      else if c = chr 'o' then s.popper fuel p
      else if c = chr 'r' then s.printer fuel p
      else some (s, false) := by
  rw [dispatch, if_neg (ne_of_head h (by decide)), if_neg (ne_of_head h (by decide)),
    if_neg (ne_of_head h (by decide)), if_pos h, hc, Option.bind_some]

end Dispatch

/-- An instruction in the file does what it means for the list. -/
theorem handler_instr {i' : Instr} {word : List CChar} (h : s.At i j p v (word :: (i'.args ++ words)))
    (hlen : word.length < room) (hword : i'.Known word) (hfits : i'.Fits room) (hfuel : v.list.cap + 8 ≤ fuel) :
    ∃ s', handler room fuel p s = some (s', false) ∧ s'.At i j p (i'.run v).1 words ∧
      s'.out = s.out ++ (i'.run v).2 := by
  obtain ⟨fuel, rfl⟩ : ∃ k, fuel = k + 8 := ⟨fuel - 8, by omega⟩
  obtain ⟨rest, hscan, hrest⟩ := scanWord_of_parts h.input
  have hat : ({ s with input := rest } : Program P).At i j p v (i'.args ++ words) := ⟨h.has, h.waiting, hrest, h.vals⟩
  rw [handler_of_scan hscan hlen]
  cases i' with
  | getSize =>
    obtain ⟨hhead, hletter⟩ := hword
    have hletter := letter_of_getElem? hletter
    obtain ⟨s', hcall, hat', hout⟩ :=
      @Program.call_keeps P _ i j p v fuel words _ .getSize sizeLines hat rfl (List.mem_singleton.2 rfl)
    refine ⟨s', ?_, hat', by rwa [waitLines_eq_nil (by simp) (by simp), List.append_nil] at hout⟩
    rw [dispatch_get hhead, Program.getter, hletter, Option.bind_some, if_pos rfl]
    exact hcall
  | getCount =>
    obtain ⟨hhead, hletter⟩ := hword
    have hletter := letter_of_getElem? hletter
    obtain ⟨s', hcall, hat', hout⟩ :=
      @Program.call_keeps P _ i j p v fuel words _ .getCount countLines hat rfl (List.mem_singleton.2 rfl)
    refine ⟨s', ?_, hat', by rwa [waitLines_eq_nil (by simp) (by simp), List.append_nil] at hout⟩
    rw [dispatch_get hhead, Program.getter, hletter, Option.bind_some, if_neg (by decide), if_pos rfl]
    exact hcall
  | push text =>
    obtain ⟨s', hcall, hat', hout⟩ := @pusher_at P _ i j p v room fuel words _ text hat hfits
    refine ⟨s', ?_, hat', hout⟩
    rw [dispatch_p hword.1 (letter_of_getElem? hword.2), if_pos rfl]
    exact hcall
  | pop =>
    obtain ⟨s', hcall, hat', hout⟩ := @popper_at P _ i j p v fuel words _ hat
    refine ⟨s', ?_, hat', hout⟩
    rw [dispatch_p hword.1 (letter_of_getElem? hword.2), if_neg (by decide), if_pos rfl]
    exact hcall
  | printAll =>
    obtain ⟨s', hcall, hat', hout⟩ := @printer_at P _ i j p v (fuel + 8) words _ hat (by omega)
    refine ⟨s', ?_, hat', hout⟩
    rw [dispatch_p hword.1 (letter_of_getElem? hword.2), if_neg (by decide), if_neg (by decide), if_pos rfl]
    exact hcall
  | setWait val =>
    obtain ⟨s', hcall, hat', hout⟩ := @setter_at_plain P _ i j p v room fuel words _ val hat hfits
    refine ⟨s', ?_, hat', by rw [hout]; exact (List.append_nil _).symm⟩
    rw [dispatch_set hword]
    exact hcall
  | setTimeout sec nsec =>
    obtain ⟨s', hcall, hat', hout⟩ := @setter_at_timeout P _ i j p v room fuel words _ sec nsec hat hfits
    refine ⟨s', ?_, hat', by rw [hout]; exact (List.append_nil _).symm⟩
    rw [dispatch_set hword]
    exact hcall
  | skip =>
    refine ⟨_, ?_, hat, (List.append_nil _).symm⟩
    simp only [Instr.Known, List.forall_mem_cons] at hword
    obtain ⟨hf, hg, hs, hp, hd, hm, -⟩ := hword
    rw [dispatch, if_neg hf, if_neg hg, if_neg hs, if_neg hp, if_neg hd, if_neg hm]

end Instr

/-! ### A whole script -/

section Scripts

variable [DecidableEq P] {i j : Int} {p : P} {l : Lifo Nat} {v : View} {room fuel : Nat} {words : List (List CChar)}
  {s : Program P}

/-- `detach_stack` in a program that holds a pointer. -/
private theorem detacher_has (h : s.world.Has i j p l) (fuel : Nat) :
    ∃ w, s.detacher (fuel + 8) p = some ({ s with world := w, out := s.out ++ [.detached] }, false) := by
  obtain ⟨g, hshows, -, hp⟩ := h
  obtain ⟨w, hw, -⟩ := detach_shows hshows ⟨_, hp⟩
  exact ⟨w, by rw [Program.detacher, World.use, hw, Option.map_some]⟩

/-- `mark_destruct` in a program that holds a pointer. -/
private theorem destroyer_has (h : s.world.Has i j p l) (fuel : Nat) :
    ∃ w, s.destroyer (fuel + 8) p = some ({ s with world := w, out := s.out ++ [.destructed 0] }, true) := by
  obtain ⟨g, hshows, -, hp⟩ := h
  obtain ⟨w, hw, -, hlog⟩ := destruct_live hshows hp
  refine ⟨w, ?_⟩
  rw [Program.destroyer, World.use, hw, Option.map_some, hlog, List.getLast?_append]
  rfl

/-- The output from any place of a script on. -/
private theorem rounds_written {body : List Instr} {e : End} (hw : Written room body e words) (h : s.At i j p v words)
    (hfuel : v.list.cap + 8 ≤ fuel) {k : Nat} (hk : body.length + 2 ≤ k) :
    rounds room fuel p k s = some (s.out ++ meaning v body e) := by
  induction hw generalizing s v k with
  | @finish word hlen hword more =>
    obtain ⟨k, rfl⟩ : ∃ m, k = m + 1 := ⟨k - 1, by omega⟩
    obtain ⟨rest, hscan, -⟩ := scanWord_of_parts h.input
    rw [rounds, handler_of_scan hscan hlen, dispatch_finish hword]
    rfl
  | @destruct word hlen hword more =>
    obtain ⟨k, rfl⟩ : ∃ m, k = m + 1 := ⟨k - 1, by omega⟩
    obtain ⟨fuel, rfl⟩ : ∃ m, fuel = m + 8 := ⟨fuel - 8, by omega⟩
    obtain ⟨rest, hscan, -⟩ := scanWord_of_parts h.input
    obtain ⟨w, hw⟩ := @destroyer_has P _ i j p v.list { s with input := rest } h.has fuel
    rw [rounds, handler_of_scan hscan hlen, dispatch_mark hword, hw]
    simp [meaning]
  | @detach word word' hlen hword hlen' hword' more =>
    obtain ⟨k, rfl⟩ : ∃ m, k = m + 2 := ⟨k - 2, by omega⟩
    obtain ⟨fuel, rfl⟩ : ∃ m, fuel = m + 8 := ⟨fuel - 8, by omega⟩
    obtain ⟨rest, hscan, hrest⟩ := scanWord_of_parts h.input
    obtain ⟨rest', hscan', -⟩ := scanWord_of_parts hrest
    obtain ⟨w, hw⟩ := @detacher_has P _ i j p v.list { s with input := rest } h.has fuel
    rw [rounds, handler_of_scan hscan hlen, dispatch_detach hword, hw]
    simp only
    rw [rounds, handler_of_scan hscan' hlen', dispatch_finish hword']
    simp [meaning]
  | @instr i' word body e words hlen hword hfits hw ih =>
    obtain ⟨k, rfl⟩ : ∃ m, k = m + 1 := ⟨k - 1, by omega⟩
    obtain ⟨s', hstep, hat, hout⟩ := handler_instr h hlen hword hfits hfuel
    rw [rounds, hstep]
    simp only
    have hcap : (i'.run v).1.list.cap = v.list.cap := run_cap v i'
    rw [ih hat (by omega) (by simpa using hk), hout, meaning, List.append_assoc]

end Scripts

/-- The attach with which the program starts: calls on a full or an empty stack return at once. -/
private theorem attach_has [DecidableEq P] {i j size : Int} {g : Generations P Nat} {w : World P Nat} {p : P}
    {fuel : Nat} (hi : 0 < i) (h : w.Shows i j g) (hok : g.UseOk p (.call (.attach size))) :
    FitsInt size ∧ ∃ w', World.call (fuel + 8) p w (.attach size) = some (w', .attach true) ∧
      w'.Has i j p (g.cur.getD (Lifo.empty Nat size.toNat)) ∧ (w'.proc p).stack.map StackT.waiting = some none := by
  obtain ⟨w', hcall, hshows, hlog, hstack⟩ := @attach_shows P Nat _ i j g w p _ fuel size hi h hok
  have hwaiting : (w'.proc p).stack.map StackT.waiting = some none := by
    rw [hstack]
    rfl
  refine ⟨?_, w', by simp [World.call, World.use, hcall, hlog], ⟨_, hshows, rfl, List.mem_cons_self⟩, hwaiting⟩
  have hunder := h.under
  obtain ⟨-, hok⟩ := hok
  cases hcur : g.cur with
  | none =>
    rw [hcur] at hok
    have hmax : size ≤ 32767 := hok.2.1
    exact ⟨by omega, by omega⟩
  | some l =>
    rw [hcur] at hok hunder
    have hmax : (l.cap : Int) ≤ 32767 := hunder.2.size_le
    exact ⟨by omega, by omega⟩

/-- Whatever calls of other programs have led to: the test program, given a script in a file or on its standard input,
prints what the script means for a bounded last-in-first-out list, from the values on that it finds in the stack under
the key, or from an empty stack of the size that the script names. -/
theorem main_output [DecidableEq P] {shmId semId : Int} (hid : 0 < shmId) {uses : List (P × Use Nat)}
    (huses : (⟨0, none, []⟩ : Generations P Nat).UsesOk uses) {k : Nat} {w : World P Nat}
    (hrun : run (World.use (k + 8)) (noWorld P Nat shmId semId) uses = some w) {p : P} {size : Int}
    (hattach : ((⟨0, none, []⟩ : Generations P Nat).after uses).UseOk p (.call (.attach size))) {room : Nat}
    {body : List Instr} {e : End} {words : List (List CChar)} (hwritten : Written room body e words)
    {text : List CChar} (htext : parts isspace text = intText size :: words) {l : Lifo Nat}
    (hl : l = ((⟨0, none, []⟩ : Generations P Nat).after uses).cur.getD (Lifo.empty Nat size.toNat)) {fuel n : Nat}
    (hfuel : l.cap + 8 ≤ fuel) (hn : body.length + 2 ≤ n) :
    main room fuel p n w text = some (.attached :: meaning ⟨l, 0, none⟩ body e) ∧
      mainStdin room fuel p n w text = some (.enterSize :: .attached :: .all l.cap l.items.length l.items.reverse ::
        .help :: meaning ⟨l, 0, none⟩ body e) := by
  obtain ⟨fuel, rfl⟩ : ∃ m, fuel = m + 8 := ⟨fuel - 8, by omega⟩
  obtain ⟨w₁, hrun₁, -, hshows⟩ := uses_show k hid (noWorld_shows shmId semId) huses
  obtain rfl : w = w₁ := Option.some.inj (hrun.symm.trans hrun₁)
  obtain ⟨⟨hlow, hhigh⟩, w', hcall, hhas, hwaiting⟩ :=
    @attach_has P _ shmId semId size _ w p fuel hid hshows hattach
  rw [← hl] at hhas
  obtain ⟨rest, hscan, hrest⟩ := scanInt_of_parts htext hlow hhigh
  constructor
  · have hat : (⟨w', rest, 0, [.attached]⟩ : Program P).At shmId semId p ⟨l, 0, none⟩ words :=
      ⟨hhas, hwaiting, hrest, rfl⟩
    rw [main, hscan]
    simp only [Option.getD_some, hcall, Option.bind_some]
    rw [rounds_written hwritten hat hfuel hn]
    rfl
  · have hat : (⟨w', rest, 0, [.enterSize, .attached]⟩ : Program P).At shmId semId p ⟨l, 0, none⟩ words :=
      ⟨hhas, hwaiting, hrest, rfl⟩
    obtain ⟨s, hprint, hat', hout⟩ := printer_at hat (show l.cap + 4 ≤ fuel + 8 by omega)
    have hat'' : ({ s with out := s.out ++ [.help] } : Program P).At shmId semId p ⟨l, 0, none⟩ words :=
      ⟨hat'.has, hat'.waiting, hat'.input, hat'.vals⟩
    rw [mainStdin, hscan]
    simp only [hcall, Option.bind_some, hprint]
    rw [rounds_written hwritten hat'' hfuel hn, hout]
    rfl

/-- Another program has made a stack of two slots and pushed one value; the script pushes two strings, the second one
after a `set_wait` with a timeout, pops and marks the stack, in a word of 13 letters. -/
theorem main_output_two : ∃ w : World Bool Nat,
    run (World.use 8) (noWorld Bool Nat 1 1) [(true, .call (.attach 2)), (true, .call (.push 7))] = some w ∧
    main 24 10 false 7 w ("2 pu b s 1 3 5 pu c po mark_destruct".toList.map chr) = some
      [.attached, .pushed 0 [chr 'b'], .waitsFull ⟨3, 5⟩, .timeoutEnded, .overflowed 1 [chr 'c'], .popped 0,
        .destructed 0, .finished] := by
  let two : Lifo Nat := ⟨2, [7], by decide⟩
  have hwritten : Written 24 [.push [chr 'b'], .setTimeout 3 5, .push [chr 'c'], .pop] .destruct
      (["pu", "b", "s", "1", "3", "5", "pu", "c", "po", "mark_destruct"].map fun w => w.toList.map chr) :=
    .instr (i := .push [chr 'b']) (by decide) ⟨rfl, rfl⟩ (by decide : 1 < 24)
      (.instr (i := .setTimeout 3 5) (by decide) rfl ⟨⟨by decide, by decide⟩, by decide, by decide⟩
        (.instr (i := .push [chr 'c']) (by decide) ⟨rfl, rfl⟩ (by decide : 1 < 24)
          (.instr (i := .pop) (by decide) ⟨rfl, rfl⟩ trivial
            (.destruct (by decide) rfl []))))
  have huses : (⟨0, none, []⟩ : Generations Bool Nat).UsesOk [(true, .call (.attach 2)), (true, .call (.push 7))] := by
    simp [Generations.UsesOk, Generations.UseOk, Generations.answer, Generations.Holds, InSegment, ptrSize,
      segmentBytes, pageSize, semvmx]
  have hattach : ((⟨0, none, []⟩ : Generations Bool Nat).after
      [(true, .call (.attach 2)), (true, .call (.push 7))]).UseOk false (.call (.attach 2)) := by
    simp [Generations.after, Generations.UseOk, Generations.answer, Generations.Holds, ShStack.answer, Lifo.push?,
      Lifo.empty]
  have hmain := @main_output Bool _ 1 1 (by decide) _ huses 0 _ rfl false 2 hattach 24 _ _ _ hwritten
    ("2 pu b s 1 3 5 pu c po mark_destruct".toList.map chr) (by decide +kernel) two rfl 10 7 (by decide) (by decide)
  exact ⟨_, rfl, hmain.1⟩

end UnixTasks.ShStack
