import UnixTasks.Flocks.Getlk
import UnixTasks.Lib.Run
import Mathlib.Logic.Function.Basic

/-!
# The two programs on one file

`setlk.c` takes a write lock on byte 1 and one on bytes 5 and 6, sleeps and exits, or exits at once when a lock is
refused; `getlk.c` scans the locks.  Any number of processes run them on one file, in any order of their system calls.

* (`Table.setlk`, `Table.release`) how the locks of a file change;
* (`World.step`) one system call of one process;
* (`Owned`) the locks of the file are those of one process;
* (`one_holder`) at most one process holds locks, and its second request is never refused.

Locks of one process that touch each other are not joined; no two locks of these programs do.
-/

namespace UnixTasks.Flocks

open ActionSystem

/-! ### Taking and releasing locks -/

namespace Lock

/-- What is left of `l` before `k`. -/
private theorem before_bound {l k : Lock} (h : l.start < k.start) :
    l.start + (if l.len = 0 then k.start - l.start else min l.len (k.start - l.start)) < 2 ^ 63 := by
  have hk := k.bound
  split <;> omega

/-- What is left of `l` behind `k`. -/
private theorem behind_bound {l k : Lock} :
    max l.start (k.start + k.len) + (if l.len = 0 then 0 else l.start + l.len - max l.start (k.start + k.len)) <
      2 ^ 63 := by
  have hl := l.bound
  have hk := k.bound
  split <;> omega

/-- The parts of `l` that `k` does not cover. -/
def minus (l k : Lock) : List Lock :=
  (if h : l.start < k.start then
    [{ l with
        len := if l.len = 0 then k.start - l.start else min l.len (k.start - l.start)
        bound := before_bound h }]
  else []) ++
  if k.len ≠ 0 ∧ (l.len = 0 ∨ k.start + k.len < l.start + l.len) then
    [{ l with
        start := max l.start (k.start + k.len)
        len := if l.len = 0 then 0 else l.start + l.len - max l.start (k.start + k.len)
        bound := behind_bound }]
  else []

/-- The lock covers no byte that the other one does not. -/
structure Within (p l : Lock) : Prop where
  write : p.write = l.write
  start : l.start ≤ p.start
  len : l.len ≠ 0 → p.len ≠ 0 ∧ p.start + p.len ≤ l.start + l.len

private theorem Exclusive.of_within {l k p q : Lock} (h : l.Exclusive k) (hp : p.Within l) (hq : q.Within k) :
    p.Exclusive q := by
  intro hw
  rw [hp.write, hq.write] at hw
  refine (h hw).imp ?_ ?_
  · rintro ⟨hlen, hend⟩
    obtain ⟨hne, hle⟩ := hp.len hlen
    have hstart := hq.start
    exact ⟨hne, by omega⟩
  · rintro ⟨hlen, hend⟩
    obtain ⟨hne, hle⟩ := hq.len hlen
    have hstart := hp.start
    exact ⟨hne, by omega⟩

theorem Within.refl (l : Lock) : l.Within l := ⟨rfl, Nat.le_refl _, fun h => ⟨h, Nat.le_refl _⟩⟩

/-- A part lies within the lock, and before or behind the other one. -/
private theorem minus_spec {l k p : Lock} (h : p ∈ l.minus k) : p.Within l ∧ (p.Before k ∨ k.Before p) := by
  rcases List.mem_append.1 h with h | h
  · split at h
    · rename_i hlt
      rw [List.mem_singleton.1 h]
      refine ⟨⟨rfl, Nat.le_refl _, fun hlen => ?_⟩, .inl ⟨?_, ?_⟩⟩
      · simp only [if_neg hlen]
        omega
      · dsimp only
        split <;> omega
      · dsimp only
        split <;> omega
    · cases h
  · split at h
    · rename_i hk
      rw [List.mem_singleton.1 h]
      refine ⟨⟨rfl, Nat.le_max_left .., fun hlen => ?_⟩, .inr ⟨hk.1, Nat.le_max_right ..⟩⟩
      have hlt := hk.2.resolve_left hlen
      simp only [if_neg hlen]
      omega
    · cases h

private theorem minus_exclusive (l k : Lock) : (l.minus k).Pairwise Exclusive := by
  rw [minus, List.pairwise_append]
  refine ⟨?_, ?_, ?_⟩
  · split
    · exact List.pairwise_singleton ..
    · exact List.Pairwise.nil
  · split
    · exact List.pairwise_singleton ..
    · exact List.Pairwise.nil
  · intro p hp q hq _
    split at hp
    · rename_i hlt
      split at hq
      · rw [List.mem_singleton.1 hp, List.mem_singleton.1 hq]
        refine .inl ⟨?_, ?_⟩
        · dsimp only
          split <;> omega
        · dsimp only
          split <;> omega
      · cases hq
    · cases hp

end Lock

instance : DecidableRel Lock.Exclusive := fun l k => Lock.decidableExclusive l k

/-- A lock that no other process keeps from being taken replaces what the process has had there. -/
theorem setlk_exclusive {t : Table} {k : Lock} (h : ∀ l ∈ t.locks, l.pid ≠ k.pid → l.Exclusive k) :
    (k :: t.locks.flatMap fun l => if l.pid = k.pid then l.minus k else [l]).Pairwise Lock.Exclusive := by
  have hwithin : ∀ l p : Lock, p ∈ (if l.pid = k.pid then l.minus k else [l]) → p.Within l := by
    intro l p hp
    split at hp
    · exact (Lock.minus_spec hp).1
    · rw [List.mem_singleton.1 hp]
      exact .refl l
  refine List.pairwise_cons.2 ⟨?_, List.pairwise_flatMap.2 ⟨?_, ?_⟩⟩
  · intro p hp
    obtain ⟨l, hl, hp⟩ := List.mem_flatMap.1 hp
    split at hp
    · exact fun _ => (Lock.minus_spec hp).2.symm
    · rename_i hpid
      rw [List.mem_singleton.1 hp]
      exact fun hw => (h l hl hpid hw.symm).symm
  · intro l _
    split
    · exact Lock.minus_exclusive l k
    · exact List.pairwise_singleton ..
  · exact t.exclusive.imp fun hlk p hp q hq => hlk.of_within (hwithin _ p hp) (hwithin _ q hq)

/-- `fcntl(fd, F_SETLK, &f)`: `none` where it is refused. -/
def Table.setlk (t : Table) (k : Lock) : Option Table :=
  if h : ∀ l ∈ t.locks, l.pid ≠ k.pid → l.Exclusive k then some ⟨_, setlk_exclusive h⟩ else none

/-- What `close` and the exit of a process do. -/
def Table.release (t : Table) (pid : Nat) : Table := ⟨t.locks.filter (·.pid ≠ pid), t.exclusive.filter _⟩

/-! ### The programs -/

private theorem f1_bound : 1 + 1 < 2 ^ 63 := by decide

private theorem f2_bound : 5 + 2 < 2 ^ 63 := by decide

/-- `f1` and `f2` of `setlk.c`. -/
def f1 (pid : Nat) : Lock := ⟨true, 1, 1, pid, f1_bound⟩

def f2 (pid : Nat) : Lock := ⟨true, 5, 2, pid, f2_bound⟩

/-- Where a process is in `setlk.c`. -/
inductive SetlkPc where
  | first
  | second
  | sleep
  | done (ret : Int)
  deriving DecidableEq, Repr

/-- A process that runs `getlk.c`; at its end it says that there is no lock when `flag` is not set. -/
structure Scan where
  state : State
  ended : Bool

/-- The locks of the file, the processes of the two programs, and the requests that were refused, by their number in
the program. -/
structure World (P Q : Type) where
  table : Table
  setlk : P → SetlkPc
  getlk : Q → Scan
  refused : List (P × Nat)

inductive Action (P Q : Type) where
  | setlk (p : P)
  | getlk (q : Q)
  deriving DecidableEq

section Step

variable {P Q : Type} [DecidableEq P] (pid : P → Nat) (len : Fin (2 ^ 63))

/-- The process asks for its lock number `n`, and exits when it is refused. -/
def World.request (w : World P Q) (p : P) (n : Nat) (k : Lock) (next : SetlkPc) : World P Q :=
  match w.table.setlk k with
  | some t => { w with table := t, setlk := Function.update w.setlk p next }
  | none =>
    { w with
      table := w.table.release (pid p)
      setlk := Function.update w.setlk p (.done (-1))
      refused := w.refused ++ [(p, n)] }

/-- A system call of a process. -/
def World.step [DecidableEq Q] (w : World P Q) : Action P Q → Option (World P Q)
  | .setlk p =>
    match w.setlk p with
    | .first => some (w.request pid p 1 (f1 (pid p)) .second)
    | .second => some (w.request pid p 2 (f2 (pid p)) .sleep)
    | .sleep => some { w with table := w.table.release (pid p), setlk := Function.update w.setlk p (.done 0) }
    | .done _ => none
  | .getlk q =>
    if (w.getlk q).ended then none
    else if Inside len (w.getlk q).state.i then
      some { w with getlk := Function.update w.getlk q ⟨body w.table (w.getlk q).state, false⟩ }
    else some { w with getlk := Function.update w.getlk q { w.getlk q with ended := true } }

/-- Nobody has done anything. -/
def World.start (P Q : Type) : World P Q :=
  ⟨⟨[], List.Pairwise.nil⟩, fun _ => .first, fun _ => ⟨.init, false⟩, []⟩

end Step

/-- The process has got a lock and has not exited. -/
def SetlkPc.holds : SetlkPc → Bool
  | .second | .sleep => true
  | .first | .done _ => false

/-! ### Who holds the locks -/

section Runs

variable {P Q : Type} [DecidableEq P] [DecidableEq Q] {pid : P → Nat} {len : Fin (2 ^ 63)} {w w' : World P Q} {p : P}
  {q : Q}

/-- The locks of the file are those of one process, as far as it has come, or there are none. -/
inductive Owned (pid : P → Nat) (w : World P Q) : Prop
  | nobody (hlocks : w.table.locks = []) (hrest : ∀ p, (w.setlk p).holds = false)
  | one (p : P) (hpc : w.setlk p = .second) (hlocks : w.table.locks = [f1 (pid p)])
      (hrest : ∀ p', p' ≠ p → (w.setlk p').holds = false)
  | both (p : P) (hpc : w.setlk p = .sleep) (hlocks : w.table.locks = [f2 (pid p), f1 (pid p)])
      (hrest : ∀ p', p' ≠ p → (w.setlk p').holds = false)

private theorem setlk_of_forall {t : Table} {k : Lock} (h : ∀ l ∈ t.locks, l.pid ≠ k.pid → l.Exclusive k) :
    t.setlk k = some ⟨_, setlk_exclusive h⟩ := dif_pos h

private theorem setlk_of_conflict {t : Table} {k l : Lock} (hl : l ∈ t.locks) (hpid : l.pid ≠ k.pid)
    (hex : ¬ l.Exclusive k) :
    t.setlk k = none := dif_neg fun h => hex (h l hl hpid)

private theorem not_exclusive_f1 (i j : Nat) : ¬ (f1 i).Exclusive (f1 j) := by
  intro h
  rcases h (.inl rfl) with h | h
  · exact absurd h.2 (by simp [f1])
  · exact absurd h.2 (by simp [f1])

/-- The first request succeeds where there is no lock. -/
private theorem setlk_f1_of_nobody {t : Table} (ht : t.locks = []) (i : Nat) :
    ∃ t', t.setlk (f1 i) = some t' ∧ t'.locks = [f1 i] := by
  refine ⟨_, setlk_of_forall (by simp [ht]), ?_⟩
  simp [ht]

/-- The second request succeeds where the process has the first lock. -/
private theorem setlk_f2_of_one {t : Table} {i : Nat} (ht : t.locks = [f1 i]) :
    ∃ t', t.setlk (f2 i) = some t' ∧ t'.locks = [f2 i, f1 i] := by
  refine ⟨_, setlk_of_forall (by simp [ht, f1, f2]), ?_⟩
  simp [ht, f1, f2, Lock.minus]

private theorem release_of_other {t : Table} {i : Nat} (h : ∀ l ∈ t.locks, l.pid ≠ i) : (t.release i).locks = t.locks :=
  List.filter_eq_self.2 fun l hl => by simpa using h l hl

private theorem release_of_own {t : Table} {i : Nat} (h : ∀ l ∈ t.locks, l.pid = i) : (t.release i).locks = [] :=
  List.filter_eq_nil_iff.2 fun l hl => by simpa using h l hl

omit [DecidableEq Q] in
private theorem not_holds_update {w : World P Q} {pc : SetlkPc} (hpc : pc.holds = false) {C : P → Prop}
    (hrest : ∀ p', C p' → (w.setlk p').holds = false) (p' : P) (hp' : p' ≠ p → C p') :
    (Function.update w.setlk p pc p').holds = false := by
  by_cases h : p' = p
  · rw [h, Function.update_self, hpc]
  · rw [Function.update_of_ne h]
    exact hrest p' (hp' h)

omit [DecidableEq Q] in
/-- The first request: it is granted when nobody holds a lock, and the process exits when somebody does. -/
private theorem owned_first (hpid : Function.Injective pid) (h : Owned pid w) (hpc : w.setlk p = .first) :
    Owned pid (w.request pid p 1 (f1 (pid p)) .second) := by
  have hother : ∀ p', (w.setlk p').holds = true → p' ≠ p := by
    rintro p' hp' rfl
    rw [hpc] at hp'
    cases hp'
  -- the request of a process that finds another one with a lock
  have hrefused : ∀ p', (w.setlk p').holds = true → f1 (pid p') ∈ w.table.locks →
      w.table.setlk (f1 (pid p)) = none := by
    intro p' hp' hmem
    refine setlk_of_conflict hmem ?_ (not_exclusive_f1 (pid p') (pid p))
    exact fun heq => hother p' hp' (hpid heq)
  cases h with
  | nobody hlocks hrest =>
    obtain ⟨t, ht, hlocks'⟩ := setlk_f1_of_nobody hlocks (pid p)
    rw [World.request, ht]
    refine .one p (Function.update_self ..) hlocks' fun p' hne => ?_
    rw [show ({ w with table := t, setlk := _ } : World P Q).setlk p' = w.setlk p' from Function.update_of_ne hne ..]
    exact hrest p'
  | one p' hpc' hlocks hrest =>
    have hholds : (w.setlk p').holds = true := by rw [hpc']; rfl
    have hne := hother p' hholds
    rw [World.request, hrefused p' hholds (by rw [hlocks]; exact List.mem_cons_self)]
    refine .one p' ?_ ?_ fun p'' hne' => ?_
    · exact (Function.update_of_ne hne ..).trans hpc'
    · refine (release_of_other ?_).trans hlocks
      simpa [hlocks, f1] using fun heq => hne (hpid heq)
    · exact not_holds_update rfl (C := (· ≠ p')) hrest p'' fun _ => hne'
  | both p' hpc' hlocks hrest =>
    have hholds : (w.setlk p').holds = true := by rw [hpc']; rfl
    have hne := hother p' hholds
    have hmem : f1 (pid p') ∈ w.table.locks := by rw [hlocks]; exact List.mem_cons_of_mem _ List.mem_cons_self
    rw [World.request, hrefused p' hholds hmem]
    refine .both p' ?_ ?_ fun p'' hne' => ?_
    · exact (Function.update_of_ne hne ..).trans hpc'
    · refine (release_of_other ?_).trans hlocks
      simpa [hlocks, f1, f2] using fun heq => hne (hpid heq)
    · exact not_holds_update rfl (C := (· ≠ p')) hrest p'' fun _ => hne'

omit [DecidableEq Q] in
/-- The second request is granted. -/
private theorem owned_second (h : Owned pid w) (hpc : w.setlk p = .second) :
    ∃ t, w.table.setlk (f2 (pid p)) = some t ∧
      Owned pid { w with table := t, setlk := Function.update w.setlk p .sleep } := by
  cases h with
  | nobody hlocks hrest =>
    have hp := hrest p
    rw [hpc] at hp
    cases hp
  | one p' hpc' hlocks hrest =>
    obtain rfl : p = p' := by
      by_contra hne
      have hp := hrest p hne
      rw [hpc] at hp
      cases hp
    obtain ⟨t, ht, hlocks'⟩ := setlk_f2_of_one hlocks
    refine ⟨t, ht, .both p (Function.update_self ..) hlocks' fun p' hne => ?_⟩
    rw [show ({ w with table := t, setlk := _ } : World P Q).setlk p' = w.setlk p' from Function.update_of_ne hne ..]
    exact hrest p' hne
  | both p' hpc' hlocks hrest =>
    have hne : p ≠ p' := by
      rintro rfl
      rw [hpc] at hpc'
      cases hpc'
    have hp := hrest p hne
    rw [hpc] at hp
    cases hp

omit [DecidableEq Q] in
/-- With its exit the locks of the process are gone. -/
private theorem owned_exit (h : Owned pid w) (hpc : w.setlk p = .sleep) :
    Owned pid { w with table := w.table.release (pid p), setlk := Function.update w.setlk p (.done 0) } := by
  cases h with
  | nobody hlocks hrest =>
    have hp := hrest p
    rw [hpc] at hp
    cases hp
  | one p' hpc' hlocks hrest =>
    have hne : p ≠ p' := by
      rintro rfl
      rw [hpc] at hpc'
      cases hpc'
    have hp := hrest p hne
    rw [hpc] at hp
    cases hp
  | both p' hpc' hlocks hrest =>
    obtain rfl : p = p' := by
      by_contra hne
      have hp := hrest p hne
      rw [hpc] at hp
      cases hp
    refine .nobody (release_of_own ?_) fun p' => ?_
    · simp [hlocks, f1, f2]
    · exact not_holds_update rfl (C := (· ≠ p)) hrest p' id

/-- What a system call of `setlk.c` keeps, and what it leaves alone. -/
theorem owned_setlk (hpid : Function.Injective pid) (h : Owned pid w)
    (hstep : w.step pid len (.setlk p) = some w') :
    Owned pid w' ∧ w'.getlk = w.getlk ∧ (∀ e ∈ w'.refused, e ∈ w.refused ∨ e = (p, 1)) ∧
      ∀ p', p' ≠ p → w'.setlk p' = w.setlk p' := by
  rw [World.step] at hstep
  cases hpc : w.setlk p with
  | first =>
    simp only [hpc, Option.some.injEq] at hstep
    subst hstep
    refine ⟨owned_first hpid h hpc, ?_⟩
    rw [World.request]
    split
    · exact ⟨rfl, fun e he => .inl he, fun p' hne => Function.update_of_ne hne ..⟩
    · refine ⟨rfl, fun e he => ?_, fun p' hne => Function.update_of_ne hne ..⟩
      simpa using he
  | second =>
    simp only [hpc, Option.some.injEq] at hstep
    subst hstep
    obtain ⟨t, ht, howned⟩ := owned_second h hpc
    rw [World.request, ht]
    exact ⟨howned, rfl, fun e he => .inl he, fun p' hne => Function.update_of_ne hne ..⟩
  | sleep =>
    simp only [hpc, Option.some.injEq] at hstep
    subst hstep
    exact ⟨owned_exit h hpc, rfl, fun e he => .inl he, fun p' hne => Function.update_of_ne hne ..⟩
  | done ret =>
    simp only [hpc] at hstep
    cases hstep

/-- A call of a scanner is one round of its loop, or its end; it changes nothing else. -/
theorem getlk_step (hstep : w.step pid len (.getlk q) = some w') :
    w'.table = w.table ∧ w'.setlk = w.setlk ∧ w'.refused = w.refused ∧ (w.getlk q).ended = false ∧
      (∀ q', q' ≠ q → w'.getlk q' = w.getlk q') ∧
      ((Inside len (w.getlk q).state.i ∧ w'.getlk q = ⟨body w.table (w.getlk q).state, false⟩) ∨
        (¬ Inside len (w.getlk q).state.i ∧ w'.getlk q = ⟨(w.getlk q).state, true⟩)) := by
  simp only [World.step] at hstep
  cases hended : (w.getlk q).ended with
  | true =>
    rw [hended] at hstep
    cases hstep
  | false =>
    rw [hended] at hstep
    simp only [Bool.false_eq_true, if_false] at hstep
    split at hstep
    · rename_i hin
      cases hstep
      exact ⟨rfl, rfl, rfl, rfl, fun q' hne => Function.update_of_ne hne .., .inl ⟨hin, Function.update_self ..⟩⟩
    · rename_i hout
      cases hstep
      exact ⟨rfl, rfl, rfl, rfl, fun q' hne => Function.update_of_ne hne .., .inr ⟨hout, Function.update_self ..⟩⟩

omit [DecidableEq P] [DecidableEq Q] in
theorem owned_getlk (h : Owned pid w) (htable : w'.table = w.table) (hsetlk : w'.setlk = w.setlk) : Owned pid w' := by
  cases h with
  | nobody hlocks hrest => exact .nobody (by rw [htable, hlocks]) (by rw [hsetlk]; exact hrest)
  | one p hpc hlocks hrest => exact .one p (by rw [hsetlk, hpc]) (by rw [htable, hlocks]) (by rw [hsetlk]; exact hrest)
  | both p hpc hlocks hrest =>
    exact .both p (by rw [hsetlk, hpc]) (by rw [htable, hlocks]) (by rw [hsetlk]; exact hrest)

theorem owned_step (hpid : Function.Injective pid) {a : Action P Q}
    (h : Owned pid w ∧ ∀ p, (p, 2) ∉ w.refused) (hstep : w.step pid len a = some w') :
    Owned pid w' ∧ ∀ p, (p, 2) ∉ w'.refused := by
  cases a with
  | setlk p =>
    obtain ⟨howned, -, hrefused, -⟩ := owned_setlk hpid h.1 hstep
    refine ⟨howned, fun p' hp' => ?_⟩
    rcases hrefused _ hp' with hold | hnew
    · exact h.2 p' hold
    · cases hnew
  | getlk q =>
    obtain ⟨htable, hsetlk, hrefused, -⟩ := getlk_step hstep
    exact ⟨owned_getlk h.1 htable hsetlk, by rw [hrefused]; exact h.2⟩

omit [DecidableEq P] [DecidableEq Q] in
theorem owned_start : Owned pid (World.start P Q) ∧ ∀ p, (p, 2) ∉ (World.start P Q).refused :=
  ⟨.nobody rfl fun _ => rfl, fun _ => List.not_mem_nil⟩

/-- In every run of any number of processes: at most one process holds locks; a process that has got its first lock gets
the second one too; and every lock of the file is held by a process that has not exited. -/
theorem one_holder (hpid : Function.Injective pid) {as : List (Action P Q)}
    (hrun : run (World.step pid len) (World.start P Q) as = some w) :
    (∀ p p', (w.setlk p).holds = true → (w.setlk p').holds = true → p = p') ∧ (∀ p, (p, 2) ∉ w.refused) ∧
      ∀ l ∈ w.table.locks, ∃ p, (w.setlk p).holds = true ∧ l.pid = pid p := by
  obtain ⟨howned, hrefused⟩ := run_invariant (fun _ _ _ h hstep => owned_step hpid h hstep) owned_start hrun
  refine ⟨?_, hrefused, ?_⟩
  · have hunique : ∀ p, (∀ p', p' ≠ p → (w.setlk p').holds = false) → ∀ p', (w.setlk p').holds = true → p' = p := by
      intro p hrest p' hp'
      by_contra hne
      rw [hrest p' hne] at hp'
      cases hp'
    intro p p' hp hp'
    cases howned with
    | nobody hlocks hrest =>
      rw [hrest p] at hp
      cases hp
    | one p₀ hpc hlocks hrest => exact (hunique p₀ hrest p hp).trans (hunique p₀ hrest p' hp').symm
    | both p₀ hpc hlocks hrest => exact (hunique p₀ hrest p hp).trans (hunique p₀ hrest p' hp').symm
  · intro l hl
    cases howned with
    | nobody hlocks hrest =>
      rw [hlocks] at hl
      cases hl
    | one p hpc hlocks hrest =>
      rw [hlocks] at hl
      exact ⟨p, by rw [hpc]; rfl, by rw [List.mem_singleton.1 hl]; rfl⟩
    | both p hpc hlocks hrest =>
      rw [hlocks] at hl
      refine ⟨p, by rw [hpc]; rfl, ?_⟩
      rcases List.mem_pair.1 hl with rfl | rfl <;> rfl

/-- The second process asks between the two requests of the first one. -/
theorem one_holder_two :
    ∃ w : World ℕ Unit,
      run (World.step id 8) (World.start ℕ Unit) [.setlk 0, .setlk 1, .setlk 0] = some w ∧
      (∀ p p', (w.setlk p).holds = true → (w.setlk p').holds = true → p = p') ∧ (∀ p, (p, 2) ∉ w.refused) ∧
      ∀ l ∈ w.table.locks, ∃ p, (w.setlk p).holds = true ∧ l.pid = id p := by
  obtain ⟨w, hrun⟩ : ∃ w : World ℕ Unit,
      run (World.step id 8) (World.start ℕ Unit) [.setlk 0, .setlk 1, .setlk 0] = some w := ⟨_, rfl⟩
  exact ⟨w, hrun, one_holder Function.injective_id hrun⟩

end Runs

end UnixTasks.Flocks
