import UnixTasks.Flocks.Locking

/-!
# A scanner beside processes that lock

The processes that run `setlk.c` take and drop their locks while a scanner goes from answer to answer.

* (`getlk_found`, `getlk_passed`) the answer of the kernel for the locks of one process;
* (`scanner_lines`) what a scanner prints whatever the others do, and after how many calls it ends;
* (`scanner_reports`) what it prints while a process sleeps on its locks.
-/

namespace UnixTasks.Flocks

open ActionSystem

/-! ### What a scanner sees -/

section Answers

variable {t : Table} {s : State} {l : Lock} {n : Nat}

/-- The answer is the one write lock that is next in the way. -/
theorem getlk_found (hat : At s n) (hl : l ∈ t.locks) (hwrite : l.write = true)
    (hover : l.len ≠ 0 → n < l.start + l.len)
    (hlow : ∀ k ∈ t.locks, (k.len ≠ 0 → n < k.start + k.len) → k.start ≤ l.start → k = l) :
    t.getlk s.f1 = some l.flock := by
  have hmeets : s.f1.Meets l := by
    refine ⟨?_, (overlaps_from hat.from_i).2 hover⟩
    cases htype : s.f1.type with
    | unlck => exact absurd htype hat.type
    | _ => simp [Flock.conflicts, htype, hwrite]
  rcases getlk_cases hat.type hat.from_i with ⟨k, hk, hmeets', hmin, hget⟩ | ⟨hnone, -⟩
  · obtain rfl := hlow k hk ((overlaps_from hat.from_i).1 hmeets'.overlaps) (hmin l hl hmeets)
    exact hget
  · exact absurd hmeets (hnone l hl)

/-- All locks are behind the scanner. -/
theorem getlk_passed (hat : At s n) (hpassed : ∀ k ∈ t.locks, k.len ≠ 0 ∧ k.start + k.len ≤ n) :
    t.getlk s.f1 = some { s.f1 with type := .unlck } := by
  rcases getlk_cases hat.type hat.from_i with ⟨k, hk, hmeets, -, -⟩ | ⟨-, hget⟩
  · obtain ⟨hlen, hle⟩ := hpassed k hk
    have hlt := (overlaps_from hat.from_i).1 hmeets.overlaps hlen
    omega
  · exact hget

private theorem body_printed_of_lock (h : t.getlk s.f1 = some l.flock) :
    (body t s).printed = s.printed ++ [l.flock] ∧ (body t s).flag = true := by
  simp only [body, h, if_pos (flock_type_ne l), and_self]

private theorem body_printed_of_none {f : Flock} (h : t.getlk s.f1 = some f) (hf : f.type = .unlck) :
    (body t s).printed = s.printed ∧ (body t s).flag = s.flag := by
  simp [body, h, hf]

private theorem body_printed_of_unlck (h : s.f1.type = .unlck) :
    (body t s).printed = s.printed ∧ (body t s).flag = s.flag := by
  simp [body, getlk_unlck h]

end Answers

/-- What a scanner has printed: nothing, the first lock of some process, or that and the second lock of some process. -/
def Lines {P : Type} (pid : P → Nat) (fs : List Flock) : Prop :=
  fs = [] ∨ (∃ p, fs = [(f1 (pid p)).flock]) ∨ ∃ p p', fs = [(f1 (pid p)).flock, (f2 (pid p')).flock]

/-- Where a scanner is: at the beginning, behind a first lock, behind a second one, or it only counts on. -/
inductive Seen {P : Type} (pid : P → Nat) (s : State) : Prop
  | start (hstart : s = .init)
  | one (p : P) (hat : At s 2) (hprinted : s.printed = [(f1 (pid p)).flock]) (hflag : s.flag = true)
  | two (p p' : P) (hat : At s 7) (hprinted : s.printed = [(f1 (pid p)).flock, (f2 (pid p')).flock])
      (hflag : s.flag = true)
  | blind (htype : s.f1.type = .unlck) (hlow : -2 ^ 31 ≤ s.i) (hhigh : s.i < 2 ^ 31) (hlines : Lines pid s.printed)
      (hflag : s.flag = true ↔ s.printed ≠ [])

private theorem f1_next (i : Nat) : (f1 i).next = (f1 i).start + (f1 i).len := toInt_eq (by simp [f1]) (by simp [f1])

private theorem f2_next (i : Nat) : (f2 i).next = (f2 i).start + (f2 i).len := toInt_eq (by simp [f2]) (by simp [f2])

section Scanners

variable {P Q : Type} {pid : P → Nat} {len : Fin (2 ^ 63)} {w : World P Q} {s : State}

/-- A round without a lock in the answer. -/
private theorem seen_of_passed {n : Nat} (hat : At s n) {t : Table}
    (hpassed : ∀ k ∈ t.locks, k.len ≠ 0 ∧ k.start + k.len ≤ n) (hlines : Lines pid s.printed)
    (hflag : s.flag = true ↔ s.printed ≠ []) : Seen pid (body t s) := by
  have hget := getlk_passed hat hpassed
  obtain ⟨hi, htype⟩ := body_of_none hget rfl
  obtain ⟨hprinted, hflag'⟩ := body_printed_of_none hget rfl
  refine .blind htype ?_ ?_ (by rw [hprinted]; exact hlines) (by rw [hprinted, hflag']; exact hflag)
  · rw [hi]
    exact le_toInt _
  · rw [hi]
    exact toInt_lt _

private theorem seen_lines (h : Seen pid s) : Lines pid s.printed ∧ (s.flag = true ↔ s.printed ≠ []) := by
  cases h with
  | start hstart =>
    subst hstart
    exact ⟨.inl rfl, by simp [State.init]⟩
  | one p hat hprinted hflag => exact ⟨.inr (.inl ⟨p, hprinted⟩), by simp [hflag, hprinted]⟩
  | two p p' hat hprinted hflag => exact ⟨.inr (.inr ⟨p, p', hprinted⟩), by simp [hflag, hprinted]⟩
  | blind htype hlow hhigh hlines hflag => exact ⟨hlines, hflag⟩

/-- At the beginning the first lock of a process that holds one is found. -/
private theorem found_first {t : Table} {p : P} (hat : At s 0) (hmem : f1 (pid p) ∈ t.locks)
    (honly : ∀ k ∈ t.locks, k = f2 (pid p) ∨ k = f1 (pid p)) : t.getlk s.f1 = some (f1 (pid p)).flock := by
  refine getlk_found hat hmem rfl (fun _ => by simp [f1]) fun k hk _ hle => ?_
  rcases honly k hk with rfl | rfl
  · simp [f1, f2] at hle
  · rfl

/-- Behind it the second lock is found. -/
private theorem found_second {t : Table} {p : P} (hat : At s 2) (hlocks : t.locks = [f2 (pid p), f1 (pid p)]) :
    t.getlk s.f1 = some (f2 (pid p)).flock := by
  refine getlk_found hat (by rw [hlocks]; exact List.mem_cons_self) rfl (fun _ => by simp [f2]) fun k hk hover _ => ?_
  rw [hlocks] at hk
  rcases List.mem_pair.1 hk with rfl | rfl
  · rfl
  · simp [f1] at hover

/-- One round of a scanner, whatever locks there are. -/
private theorem seen_body (howned : Owned pid w) (h : Seen pid s) : Seen pid (body w.table s) := by
  obtain ⟨hlines, hflag⟩ := seen_lines h
  have hfirst : ∀ p, w.table.getlk s.f1 = some (f1 (pid p)).flock → s.printed = [] → Seen pid (body w.table s) := by
    intro p hget hnil
    obtain ⟨hprinted, hflag'⟩ := body_printed_of_lock hget
    exact .one p (at_body_of_lock hget (f1_next _)) (by rw [hprinted, hnil]; rfl) hflag'
  cases h with
  | start hstart =>
    have hat : At s 0 := hstart ▸ at_init
    have hnil : s.printed = [] := by rw [hstart]; rfl
    cases howned with
    | nobody hlocks _ => exact seen_of_passed hat (by simp [hlocks]) hlines hflag
    | one p _ hlocks _ =>
      exact hfirst p (found_first hat (by simp [hlocks]) fun k hk => .inr (by simpa [hlocks] using hk)) hnil
    | both p _ hlocks _ =>
      exact hfirst p (found_first hat (by simp [hlocks]) fun k hk => by simpa [hlocks] using hk) hnil
  | one p hat hprinted hflag' =>
    cases howned with
    | nobody hlocks _ => exact seen_of_passed hat (by simp [hlocks]) hlines hflag
    | one p' _ hlocks _ => exact seen_of_passed hat (by simp [hlocks, f1]) hlines hflag
    | both p' _ hlocks _ =>
      have hget := found_second hat hlocks
      obtain ⟨hprinted', hflag''⟩ := body_printed_of_lock hget
      exact .two p p' (at_body_of_lock hget (f2_next _)) (by rw [hprinted', hprinted]; rfl) hflag''
  | two p p' hat hprinted hflag' =>
    refine seen_of_passed hat ?_ hlines hflag
    cases howned with
    | nobody hlocks _ => simp [hlocks]
    | one p' _ hlocks _ => simp [hlocks, f1]
    | both p' _ hlocks _ => simp [hlocks, f1, f2]
  | blind htype hlow hhigh =>
    obtain ⟨hi, htype'⟩ := body_of_unlck (t := w.table) htype
    obtain ⟨hprinted, hflag'⟩ := body_printed_of_unlck (t := w.table) htype
    refine .blind htype' ?_ ?_ (by rw [hprinted]; exact hlines) (by rw [hprinted, hflag']; exact hflag)
    · rw [hi]
      exact le_toInt _
    · rw [hi]
      exact toInt_lt _

/-- All locks of these programs end where the scanner computes. -/
theorem Owned.next_eq {l : Lock} (h : Owned pid w) (hl : l ∈ w.table.locks) : l.next = l.start + l.len ∧ l.len ≠ 0 := by
  have hown : ∀ p, l = f2 (pid p) ∨ l = f1 (pid p) → l.next = l.start + l.len ∧ l.len ≠ 0 := by
    rintro p (rfl | rfl)
    · exact ⟨f2_next _, by simp [f2]⟩
    · exact ⟨f1_next _, by simp [f1]⟩
  cases h with
  | nobody hlocks _ =>
    rw [hlocks] at hl
    cases hl
  | one p _ hlocks _ =>
    rw [hlocks] at hl
    exact hown p (.inr (List.mem_singleton.1 hl))
  | both p _ hlocks _ =>
    rw [hlocks] at hl
    exact hown p (List.mem_pair.1 hl)

end Scanners

section Progress

variable {P Q : Type} {pid : P → Nat} {len : Fin (2 ^ 63)} {w : World P Q} {s : State} {n : Nat}

/-- A round counts on by one, or goes past a lock. -/
private theorem body_i_of_at {t : Table} (hat : At s n) (ht : ∀ l ∈ t.locks, l.next = l.start + l.len ∧ l.len ≠ 0) :
    (body t s).i = toInt (s.i + 1) ∨ s.i < (body t s).i := by
  rcases getlk_cases (t := t) hat.type hat.from_i with ⟨l, hl, hmeets, -, hget⟩ | ⟨-, hget⟩
  · obtain ⟨hnext, hlen⟩ := ht l hl
    have hlt := (overlaps_from hat.from_i).1 hmeets.overlaps hlen
    refine .inr ?_
    rw [(body_of_lock hget).1, hnext, hat.i]
    omega
  · exact .inl (body_of_none hget rfl).1

private theorem seen_body_i (howned : Owned pid w) (h : Seen pid s) :
    (body w.table s).i = toInt (s.i + 1) ∨ s.i < (body w.table s).i := by
  cases h with
  | start hstart => exact body_i_of_at (hstart ▸ at_init) fun l hl => howned.next_eq hl
  | one p hat _ _ => exact body_i_of_at hat fun l hl => howned.next_eq hl
  | two p p' hat _ _ => exact body_i_of_at hat fun l hl => howned.next_eq hl
  | blind htype _ _ _ _ => exact .inl (body_of_unlck htype).1

theorem Seen.bounds (h : Seen pid s) : -2 ^ 31 ≤ s.i ∧ s.i < 2 ^ 31 := by
  have hsmall : ∀ n : Nat, n < 8 → At s n → -2 ^ 31 ≤ s.i ∧ s.i < 2 ^ 31 := by
    intro n hn hat
    rw [hat.i]
    omega
  cases h with
  | start hstart => exact hsmall 0 (by decide) (hstart ▸ at_init)
  | one p hat _ _ => exact hsmall 2 (by decide) hat
  | two p p' hat _ _ => exact hsmall 7 (by decide) hat
  | blind _ hlow hhigh _ _ => exact ⟨hlow, hhigh⟩

/-- How many calls a scanner still makes at most. -/
def Scan.left (len : Fin (2 ^ 63)) (c : Scan) : Nat :=
  if c.ended then 0 else if Inside len c.state.i then min (len : Nat) (2 ^ 31) - c.state.i.toNat + 1 else 1

private theorem Scan.left_of_not_inside {c : Scan} (hended : c.ended = false) (h : ¬ Inside len c.state.i) :
    c.left len = 1 := by
  rw [Scan.left, hended, if_neg (by decide), if_neg h]

private theorem Scan.left_of_inside {c : Scan} (hended : c.ended = false) (h : Inside len c.state.i) :
    c.left len = min (len : Nat) (2 ^ 31) - c.state.i.toNat + 1 := by
  rw [Scan.left, hended, if_neg (by decide), if_pos h]

private theorem left_init : (⟨.init, false⟩ : Scan).left len ≤ min (len : Nat) (2 ^ 31) + 1 := by
  by_cases h : Inside len State.init.i
  · rw [Scan.left_of_inside rfl h]
    omega
  · rw [Scan.left_of_not_inside rfl h]
    omega

/-- Every round takes something off. -/
private theorem left_body (howned : Owned pid w) (h : Seen pid s) (hin : Inside len s.i) :
    (⟨body w.table s, false⟩ : Scan).left len < (⟨s, false⟩ : Scan).left len := by
  have hbounds := h.bounds
  have hpos := hin.nonneg hbounds.1
  have hlow := (seen_body howned h).bounds.1
  have hlen : s.i.toNat < (len : Nat) := by
    rw [Inside] at hin
    omega
  rw [Scan.left_of_inside (c := ⟨s, false⟩) rfl hin]
  by_cases hin' : Inside len (body w.table s).i
  · have hpos' := hin'.nonneg hlow
    have hgrow : s.i < (body w.table s).i := by
      rcases seen_body_i howned h with hi | hi
      · -- the largest `int` is followed by a negative one, which is not inside
        have hnext : s.i + 1 < 2 ^ 31 := by
          by_contra hlast
          have hmax : s.i = 2 ^ 31 - 1 := by omega
          have hwrap : (body w.table s).i = -2 ^ 31 := by
            rw [hi, hmax]
            decide
          omega
        rw [hi, toInt_eq (by omega) hnext]
        omega
      · exact hi
    rw [Scan.left_of_inside (c := ⟨body w.table s, false⟩) rfl hin']
    dsimp only
    omega
  · rw [Scan.left_of_not_inside (c := ⟨body w.table s, false⟩) rfl hin']
    dsimp only
    omega

end Progress

/-! ### What a scanner prints -/

section Reports

variable {P Q : Type} [DecidableEq P] [DecidableEq Q] {pid : P → Nat} {len : Fin (2 ^ 63)} {w w' : World P Q} {p : P}
  {q : Q}

/-- The locks are those of one process, and every scanner has seen some of these. -/
structure Scanned (pid : P → Nat) (w : World P Q) : Prop where
  owned : Owned pid w
  seen : ∀ q, Seen pid (w.getlk q).state

omit [DecidableEq P] [DecidableEq Q] in
private theorem scanned_start : Scanned pid (World.start P Q) := ⟨.nobody rfl fun _ => rfl, fun _ => .start rfl⟩

private theorem scanned_step (hpid : Function.Injective pid) {a : Action P Q} (h : Scanned pid w)
    (hstep : w.step pid len a = some w') : Scanned pid w' := by
  cases a with
  | setlk p =>
    obtain ⟨howned, hgetlk, -⟩ := owned_setlk hpid h.owned hstep
    exact ⟨howned, by rw [hgetlk]; exact h.seen⟩
  | getlk q =>
    obtain ⟨htable, hsetlk, -, -, hother, hcases⟩ := getlk_step hstep
    refine ⟨owned_getlk h.owned htable hsetlk, fun q' => ?_⟩
    by_cases hq : q' = q
    · subst hq
      rcases hcases with ⟨-, hnext⟩ | ⟨-, hnext⟩
      · rw [hnext]
        exact seen_body h.owned (h.seen q')
      · rw [hnext]
        exact h.seen q'
    · rw [hother q' hq]
      exact h.seen q'

/-- A call of the scanner itself takes something off what it has left, the other calls do not touch it. -/
private theorem left_step (hpid : Function.Injective pid) {a : Action P Q} (h : Scanned pid w)
    (hstep : w.step pid len a = some w') :
    (w'.getlk q).left len + [a].count (.getlk q) ≤ (w.getlk q).left len := by
  cases a with
  | setlk p =>
    obtain ⟨-, hgetlk, -⟩ := owned_setlk hpid h.owned hstep
    rw [hgetlk, List.count_singleton]
    simp
  | getlk q' =>
    obtain ⟨-, -, -, hended, hother, hcases⟩ := getlk_step hstep
    by_cases hq : q = q'
    · subst hq
      have hscan : w.getlk q = ⟨(w.getlk q).state, false⟩ := by rw [← hended]
      rw [List.count_singleton_self]
      rcases hcases with ⟨hin, hnext⟩ | ⟨hout, hnext⟩
      · rw [hnext, hscan]
        exact left_body h.owned (h.seen q) hin
      · rw [hnext, Scan.left_of_not_inside hended hout, Scan.left, if_pos rfl]
    · rw [hother q hq, List.count_singleton]
      simp [Ne.symm hq]

private theorem left_run (hpid : Function.Injective pid) {as : List (Action P Q)} (h : Scanned pid w)
    (hrun : run (World.step pid len) w as = some w') :
    (w'.getlk q).left len + as.count (.getlk q) ≤ (w.getlk q).left len := by
  induction as generalizing w with
  | nil =>
    cases hrun
    exact Nat.le_refl _
  | cons a as ih =>
    obtain ⟨u, hu, hrun⟩ := run_cons_eq_some.1 hrun
    have hstep := left_step (q := q) hpid h hu
    have hrest := ih (scanned_step hpid h hu) hrun
    rw [← List.singleton_append, List.count_append]
    omega

/-- In every run of any number of processes a scanner has printed nothing, the first lock of a process, or that and the
second lock of a process, and `flag` says whether it has printed a lock; as long as it has not ended it can go on, and
it ends with at most as many calls as the file has bytes, or as there are natural numbers in an `int`, and one. -/
theorem scanner_lines (hpid : Function.Injective pid) {as : List (Action P Q)}
    (hrun : run (World.step pid len) (World.start P Q) as = some w) (q : Q) :
    Lines pid (w.getlk q).state.printed ∧ ((w.getlk q).state.flag = true ↔ (w.getlk q).state.printed ≠ []) ∧
      ((w.getlk q).ended = false → ∃ w', w.step pid len (.getlk q) = some w') ∧
      as.count (.getlk q) ≤ min (len : Nat) (2 ^ 31) + 1 := by
  have hscanned : Scanned pid w := run_invariant (fun _ _ _ h hstep => scanned_step hpid h hstep) scanned_start hrun
  obtain ⟨hlines, hflag⟩ := seen_lines (hscanned.seen q)
  refine ⟨hlines, hflag, fun hended => ?_, ?_⟩
  · rw [World.step, hended, if_neg (by decide)]
    split
    · exact ⟨_, rfl⟩
    · exact ⟨_, rfl⟩
  · have hleft := left_run (q := q) hpid scanned_start hrun
    exact Nat.le_trans (Nat.le_trans (Nat.le_add_left _ _) hleft) left_init

/-- The first process exits between two rounds of the scanner. -/
theorem scanner_lines_exit :
    ∃ w : World ℕ Unit,
      run (World.step id 8) (World.start ℕ Unit) [.setlk 0, .getlk (), .setlk 0, .setlk 0, .getlk ()] = some w ∧
      Lines id (w.getlk ()).state.printed := by
  obtain ⟨w, hrun⟩ : ∃ w : World ℕ Unit,
      run (World.step id 8) (World.start ℕ Unit) [.setlk 0, .getlk (), .setlk 0, .setlk 0, .getlk ()] = some w :=
    ⟨_, rfl⟩
  exact ⟨w, hrun, (scanner_lines Function.injective_id hrun ()).1⟩

omit [DecidableEq P] [DecidableEq Q] in
/-- While the process sleeps, its two locks are the locks of the file. -/
private theorem Owned.locks_of_sleep (h : Owned pid w) (hpc : w.setlk p = .sleep) :
    w.table.locks = [f2 (pid p), f1 (pid p)] := by
  have hholds : (w.setlk p).holds = true := by rw [hpc]; rfl
  cases h with
  | nobody _ hrest =>
    rw [hrest p] at hholds
    cases hholds
  | one p' hpc' _ hrest =>
    by_cases hne : p = p'
    · subst hne
      rw [hpc] at hpc'
      cases hpc'
    · rw [hrest p hne] at hholds
      cases hholds
  | both p' _ hlocks hrest =>
    by_cases hne : p = p'
    · rw [hne, hlocks]
    · rw [hrest p hne] at hholds
      cases hholds

/-- How far a scanner has come that began while the process slept. -/
inductive Watch (len : Fin (2 ^ 63)) (i : Nat) (c : Scan) : Prop
  | start (hstart : c.state = .init) (hended : c.ended = true → (len : Nat) = 0)
  | one (hat : At c.state 2) (hprinted : c.state.printed = [(f1 i).flock]) (hlen : 0 < (len : Nat))
      (hended : c.ended = true → (len : Nat) ≤ 2)
  | two (hat : At c.state 7 ∨ c.state.f1.type = .unlck) (hprinted : c.state.printed = [(f1 i).flock, (f2 i).flock])
      (hlen : 2 < (len : Nat))

/-- The lines of locks that lie one behind the other, from the position `i` on: each lock is met from behind the one
before, if that is a position in the file.  The lock itself may begin behind the end of the file. -/
def reports (len : Nat) : Nat → List Lock → List Flock
  | _, [] => []
  | i, l :: ls => if i < len then l.flock :: reports len (l.start + l.len) ls else []

omit [DecidableEq P] [DecidableEq Q] in
theorem Watch.printed {i : Nat} {c : Scan} (h : Watch len i c) (hended : c.ended = true) :
    c.state.printed = reports len 0 [f1 i, f2 i] := by
  cases h with
  | start hstart hlen =>
    have hzero : ¬ 0 < (len : Nat) := by
      rw [hlen hended]
      exact Nat.lt_irrefl 0
    rw [hstart, reports, if_neg hzero]
    rfl
  | one hat hprinted hpos hlen =>
    have hend : ¬ 2 < (len : Nat) := Nat.not_lt.2 (hlen hended)
    rw [hprinted, reports, if_pos hpos]
    show _ = _ :: (if 2 < (len : Nat) then _ else _)
    rw [if_neg hend]
  | two hat hprinted hlen =>
    rw [hprinted, reports, if_pos (by omega)]
    show _ = _ :: (if 2 < (len : Nat) then _ else _)
    rw [if_pos hlen]
    rfl

omit [DecidableEq P] [DecidableEq Q] in
/-- A round of the scanner. -/
private theorem watch_body {c : Scan} (h : Watch len (pid p) c) (hlocks : w.table.locks = [f2 (pid p), f1 (pid p)])
    (hin : Inside len c.state.i) : Watch len (pid p) ⟨body w.table c.state, false⟩ := by
  cases h with
  | start hstart _ =>
    have hat : At c.state 0 := hstart ▸ at_init
    have hget : w.table.getlk c.state.f1 = some (f1 (pid p)).flock :=
      found_first hat (by simp [hlocks]) fun k hk => by simpa [hlocks] using hk
    rw [hat.i] at hin
    refine .one (at_body_of_lock hget (f1_next _)) ?_ ((inside_ofNat (by decide)).1 hin) nofun
    rw [(body_printed_of_lock hget).1, hstart]
    rfl
  | one hat hprinted _ _ =>
    have hget := found_second hat hlocks
    rw [hat.i] at hin
    refine .two (.inl (at_body_of_lock hget (f2_next _))) ?_ ((inside_ofNat (by decide)).1 hin)
    rw [(body_printed_of_lock hget).1, hprinted]
    rfl
  | two hat hprinted hlen =>
    rcases hat with hat | htype
    · have hget := getlk_passed (t := w.table) hat (by simp [hlocks, f1, f2])
      exact .two (.inr (body_of_none hget rfl).2) ((body_printed_of_none hget rfl).1.trans hprinted) hlen
    · exact .two (.inr (body_of_unlck htype).2) ((body_printed_of_unlck htype).1.trans hprinted) hlen

omit [DecidableEq P] [DecidableEq Q] in
/-- The end of the scanner. -/
theorem watch_end {c : Scan} {i : Nat} (h : Watch len i c) (hout : ¬ Inside len c.state.i) :
    Watch len i ⟨c.state, true⟩ := by
  cases h with
  | start hstart _ =>
    refine .start hstart fun _ => ?_
    rw [hstart, Inside] at hout
    simpa [State.init] using hout
  | one hat hprinted hlen _ =>
    refine .one hat hprinted hlen fun _ => ?_
    rw [hat.i, inside_ofNat (by decide)] at hout
    omega
  | two hat hprinted hlen => exact .two hat hprinted hlen

/-- The process sleeps on its locks, and the scanner sees these. -/
structure Watched (pid : P → Nat) (len : Fin (2 ^ 63)) (p : P) (q : Q) (w : World P Q) : Prop where
  owned : Owned pid w
  sleep : w.setlk p = .sleep
  watch : Watch len (pid p) (w.getlk q)

/-- Whoever else makes a call. -/
theorem watched_step (hpid : Function.Injective pid) {a : Action P Q} (h : Watched pid len p q w) (ha : a ≠ .setlk p)
    (hstep : w.step pid len a = some w') : Watched pid len p q w' := by
  obtain ⟨howned, hsleep, hwatch⟩ := h
  cases a with
  | setlk p' =>
    have hne : p ≠ p' := by
      rintro rfl
      exact ha rfl
    obtain ⟨howned', hgetlk, -, hother⟩ := owned_setlk hpid howned hstep
    exact ⟨howned', by rw [hother p hne, hsleep], by rw [hgetlk]; exact hwatch⟩
  | getlk q' =>
    obtain ⟨htable, hsetlk, -, -, hother, hcases⟩ := getlk_step hstep
    refine ⟨owned_getlk howned htable hsetlk, by rw [hsetlk, hsleep], ?_⟩
    by_cases hq : q = q'
    · subst hq
      rcases hcases with ⟨hin, hnext⟩ | ⟨hout, hnext⟩
      · rw [hnext]
        exact watch_body hwatch (howned.locks_of_sleep hsleep) hin
      · rw [hnext]
        exact watch_end hwatch hout
    · rw [hother q hq]
      exact hwatch

/-- A scanner that begins and ends while a process sleeps, whatever the others try in between, has printed the locks of
this process in their order, each one that it meets from a position in the file: the first from its beginning, the
second from behind the first. -/
theorem scanner_reports (hpid : Function.Injective pid) {as bs : List (Action P Q)}
    (hbefore : run (World.step pid len) (World.start P Q) as = some w) (hsleep : w.setlk p = .sleep)
    (hbegin : w.getlk q = ⟨.init, false⟩) (hbs : ∀ a ∈ bs, a ≠ .setlk p)
    (hrun : run (World.step pid len) w bs = some w') (hended : (w'.getlk q).ended = true) :
    (w'.getlk q).state.printed = reports len 0 [f1 (pid p), f2 (pid p)] := by
  have howned : Owned pid w := (run_invariant (fun _ _ _ h hstep => owned_step hpid h hstep) owned_start hbefore).1
  have hwatched : Watched pid len p q w := by
    refine ⟨howned, hsleep, ?_⟩
    rw [hbegin]
    exact .start rfl nofun
  have hother : AllSteps (World.step pid len) (fun _ a => a ≠ .setlk p) w bs := .of_mem hbs
  have hwatched' : Watched pid len p q w' :=
    run_invariant_of_good (fun _ _ _ h ha hstep => watched_step hpid h ha hstep) hwatched hother hrun
  exact hwatched'.watch.printed hended

/-- The second process is refused while the scanner reads a file of eight bytes. -/
theorem scanner_reports_eight :
    ∃ w w' : World ℕ Unit,
      run (World.step id 8) (World.start ℕ Unit) [.setlk 0, .setlk 0] = some w ∧
      run (World.step id 8) w [.getlk (), .setlk 1, .getlk (), .getlk (), .getlk ()] = some w' ∧
      (w'.getlk ()).state.printed = reports 8 0 [f1 0, f2 0] := by
  obtain ⟨w, w', hbefore, hsleep, hbegin, hrun, hended⟩ : ∃ w w' : World ℕ Unit,
      run (World.step id 8) (World.start ℕ Unit) [.setlk 0, .setlk 0] = some w ∧ w.setlk 0 = .sleep ∧
      w.getlk () = ⟨.init, false⟩ ∧
      run (World.step id 8) w [.getlk (), .setlk 1, .getlk (), .getlk (), .getlk ()] = some w' ∧
      (w'.getlk ()).ended = true := ⟨_, _, rfl, rfl, rfl, rfl, rfl⟩
  exact ⟨w, w', hbefore, hrun, scanner_reports Function.injective_id hbefore hsleep hbegin (by simp) hrun hended⟩

end Reports

end UnixTasks.Flocks
