import Mathlib.Algebra.Ring.Int.Defs
import Mathlib.Algebra.Ring.Nat
import Mathlib.Data.Fintype.Card
import Mathlib.Data.List.MinMax
import Mathlib.Data.List.Pairwise
import Mathlib.Data.Set.Finite.List
import Mathlib.Logic.Relation
import Mathlib.Tactic.Common

/-!
# The lock scanner

`getlk.c` asks for one lock after the other: every answer of `F_GETLK` is the lowest lock in the way of the request, and
the next request starts where that lock ends.  The loop counter is set to the same position, and the type of the next
request is whatever the answer has left in the structure.  After an answer without a lock the type is `F_UNLCK`, which
`F_GETLK` does not accept, and the loop counts on to the end of the file.

The locks that the scanner comes by (`Table.Scanned`) are the answer to its first request and, from there on, the answer
to the request behind each of them (`Table.Follows`).

The main result (`getlk_terminates`) is that the loop ends if and only if it gets past each of these locks.  The
position behind the lock is outside the file; or it has not been cut off by the conversion to `int` and the lock is not
a write lock up to any end of file, since from the request behind such a lock, which starts at the lock itself, the
answer is the same lock again; or the position has been cut off, and the scanner does not come back to the lock from
there.
-/

namespace UnixTasks.Flocks

/-- A lock that another process holds on the `len` bytes from `start` on, or on all of them. -/
structure Lock where
  write : Bool
  start : Nat
  len : Nat
  pid : Nat
  bound : start + len < 2 ^ 63

namespace Lock

/-- The lock ends before the other one starts. -/
def Before (l k : Lock) : Prop := l.len ≠ 0 ∧ l.start + l.len ≤ k.start

/-- Only read locks overlap. -/
def Exclusive (l k : Lock) : Prop := l.write = true ∨ k.write = true → l.Before k ∨ k.Before l

instance decidableBefore (l k : Lock) : Decidable (l.Before k) := inferInstanceAs (Decidable (_ ∧ _))

instance decidableExclusive (l k : Lock) : Decidable (l.Exclusive k) := inferInstanceAs (Decidable (_ → _))

instance exclusive_symm : Std.Symm Exclusive := ⟨fun _ _ h hw => (h hw.symm).symm⟩

end Lock

/-- The locks on one file. -/
structure Table where
  locks : List Lock
  exclusive : locks.Pairwise Lock.Exclusive

inductive LockType where
  | rdlck
  | wrlck
  | unlck
deriving DecidableEq

/-- `struct flock`; `l_whence` is `SEEK_SET` throughout. -/
structure Flock where
  type : LockType
  start : Int
  len : Nat
  pid : Nat
deriving DecidableEq

namespace Flock

def overlaps (f : Flock) (l : Lock) : Bool :=
  (l.len == 0 || f.start < l.start + l.len) && (f.len == 0 || l.start < f.start + f.len)

def conflicts (f : Flock) (l : Lock) : Bool :=
  match f.type with
  | .rdlck => l.write
  | .wrlck => true
  | .unlck => false

/-- The request is for all bytes from a position on. -/
structure From (f : Flock) (n : Nat) : Prop where
  start : f.start = n
  len : f.len = 0

end Flock

/-- The lock as `F_GETLK` reports it. -/
def Lock.flock (l : Lock) : Flock :=
  { type := if l.write then .wrlck else .rdlck, start := l.start, len := l.len, pid := l.pid }

/-- `fcntl(fd, F_GETLK, &f)`: `none` for a failure, which leaves the structure alone. -/
def Table.getlk (t : Table) (f : Flock) : Option Flock :=
  if f.type = .unlck ∨ f.start < 0 then none
  else
    match (t.locks.filter fun l => f.conflicts l && f.overlaps l).argmin Lock.start with
    | some l => some l.flock
    | none => some { f with type := .unlck }

/-- The conversion to `int`. -/
def toInt (z : Int) : Int := z.bmod (2 ^ 32)

/-- `printed` are the lines for the locks found. -/
structure State where
  i : Int
  f1 : Flock
  flag : Bool
  printed : List Flock

def State.init : State :=
  { i := 0, f1 := { type := .rdlck, start := 0, len := 0, pid := 0 }, flag := false, printed := [] }

/-- The body of the loop. -/
def body (t : Table) (s : State) : State :=
  match t.getlk s.f1 with
  | some f =>
    if f.type ≠ .unlck then
      let i := toInt (f.start + f.len)
      { i := i, f1 := { f with start := i, len := 0, pid := 0 }, flag := true, printed := s.printed ++ [f] }
    else { s with i := toInt (s.i + 1), f1 := { f with start := f.start + 1 } }
  | none => { s with i := toInt (s.i + 1), f1 := { s.f1 with start := s.f1.start + 1 } }

/-- `while (i < len)`, where the `int` is converted to `size_t`. -/
def Inside (len : Fin (2 ^ 63)) (i : Int) : Prop := i % 2 ^ 64 < (len : Nat)

instance decidableInside (len : Fin (2 ^ 63)) (i : Int) : Decidable (Inside len i) :=
  inferInstanceAs (Decidable (_ < _))

def loop (t : Table) (len : Fin (2 ^ 63)) : Nat → State → Option State
  | 0, _ => none
  | fuel + 1, s => if Inside len s.i then loop t len fuel (body t s) else some s

/-- The loop ends in this state. -/
def EndsIn (t : Table) (len : Fin (2 ^ 63)) (s s' : State) : Prop := ∃ fuel, loop t len fuel s = some s'

/-- The loop ends. -/
def Ends (t : Table) (len : Fin (2 ^ 63)) (s : State) : Prop := ∃ s', EndsIn t len s s'

/-- The position behind the lock, as the scanner computes it. -/
def Lock.next (l : Lock) : Int := toInt (l.start + l.len)

/-- The request behind the lock: from that position on, and with the type that the lock has left. -/
def Lock.request (l : Lock) : Flock := { l.flock with start := l.next, len := 0, pid := 0 }

/-- Behind the one lock the answer is the other one. -/
def Table.Follows (t : Table) (len : Fin (2 ^ 63)) (l k : Lock) : Prop :=
  k ∈ t.locks ∧ Inside len l.next ∧ t.getlk l.request = some k.flock

/-- The scanner comes by the lock. -/
inductive Table.Scanned (t : Table) (len : Fin (2 ^ 63)) : Lock → Prop
  | first {l : Lock} : l ∈ t.locks → Inside len 0 → t.getlk State.init.f1 = some l.flock → t.Scanned len l
  | next {l k : Lock} : t.Scanned len l → t.Follows len l k → t.Scanned len k

/-- The scanner gets past the lock: it ends there, or the position is right and no write lock goes on from it. -/
def Lock.Passed (len : Fin (2 ^ 63)) (l : Lock) : Prop :=
  ¬ Inside len l.next ∨ (l.next = l.start + l.len ∧ (l.write = true → l.len ≠ 0))

/-- The position behind the lock is another one inside the file. -/
def Lock.TurnsBack (len : Fin (2 ^ 63)) (l : Lock) : Prop := Inside len l.next ∧ l.next ≠ l.start + l.len

/-- From one answer to the next the scanner comes to this lock again. -/
def Table.ComesBack (t : Table) (len : Fin (2 ^ 63)) (l : Lock) : Prop := Relation.TransGen (t.Follows len) l l

/-! ### Positions -/

theorem toInt_eq {n : Int} (h : -2 ^ 31 ≤ n) (h' : n < 2 ^ 31) : toInt n = n := by
  apply Int.bmod_eq_of_le
  · omega
  · omega

theorem le_toInt (n : Int) : -2 ^ 31 ≤ toInt n := by
  have h := Int.le_bmod (x := n) (m := 2 ^ 32) (by decide)
  rw [toInt]
  omega

theorem toInt_lt (n : Int) : toInt n < 2 ^ 31 := by
  have h := Int.bmod_lt (x := n) (m := 2 ^ 32) (by decide)
  rw [toInt]
  omega

variable {t : Table} {len : Fin (2 ^ 63)} {s : State} {l : Lock} {n : Nat}

theorem Inside.nonneg {i : Int} (h : Inside len i) (hi : -2 ^ 31 ≤ i) : 0 ≤ i := by
  have hlen := len.isLt
  rw [Inside] at h
  omega

theorem inside_ofNat (hn : n < 2 ^ 63) : Inside len n ↔ n < (len : Nat) := by
  rw [Inside]
  omega

/-! ### One round -/

theorem loop_succ {fuel : Nat} (h : Inside len s.i) : loop t len (fuel + 1) s = loop t len fuel (body t s) :=
  if_pos h

theorem endsIn_of_not_inside (h : ¬ Inside len s.i) : EndsIn t len s s := ⟨1, if_neg h⟩

theorem EndsIn.of_body {s' : State} (hin : Inside len s.i) (h : EndsIn t len (body t s) s') : EndsIn t len s s' := by
  obtain ⟨fuel, hloop⟩ := h
  exact ⟨fuel + 1, (loop_succ hin).trans hloop⟩

theorem EndsIn.body {s' : State} (hin : Inside len s.i) (h : EndsIn t len s s') :
    EndsIn t len (body t s) s' := by
  obtain ⟨fuel, hloop⟩ := h
  cases fuel with
  | zero => cases hloop
  | succ fuel => exact ⟨fuel, (loop_succ hin).symm.trans hloop⟩

private theorem ends_of_not_inside (h : ¬ Inside len s.i) : Ends t len s := ⟨s, endsIn_of_not_inside h⟩

theorem Ends.of_body (h : Ends t len (body t s)) : Ends t len s := by
  by_cases hs : Inside len s.i
  · obtain ⟨s', hends⟩ := h
    exact ⟨s', hends.of_body hs⟩
  · exact ends_of_not_inside hs

theorem getlk_unlck {f : Flock} (h : f.type = .unlck) : t.getlk f = none := if_pos (.inl h)

/-- The request meets the lock. -/
structure Flock.Meets (f : Flock) (l : Lock) : Prop where
  conflicts : f.conflicts l = true
  overlaps : f.overlaps l = true

theorem overlaps_from {f : Flock} (hf : f.From n) : f.overlaps l = true ↔ l.len ≠ 0 → n < l.start + l.len := by
  rw [Flock.overlaps, hf.start, hf.len]
  simp
  omega

/-- The answer to a request: the lowest lock that it meets, or none is met. -/
theorem getlk_cases {f : Flock} (htype : f.type ≠ .unlck) (hf : f.From n) :
    (∃ l ∈ t.locks, f.Meets l ∧ (∀ k ∈ t.locks, f.Meets k → l.start ≤ k.start) ∧ t.getlk f = some l.flock) ∨
    ((∀ k ∈ t.locks, ¬ f.Meets k) ∧ t.getlk f = some { f with type := .unlck }) := by
  have hmem : ∀ l, l ∈ t.locks.filter (fun l => f.conflicts l && f.overlaps l) ↔ l ∈ t.locks ∧ f.Meets l := by
    intro l
    rw [List.mem_filter, Bool.and_eq_true]
    exact and_congr_right fun _ => ⟨fun h => ⟨h.1, h.2⟩, fun h => ⟨h.conflicts, h.overlaps⟩⟩
  have hstart : ¬ (f.type = .unlck ∨ f.start < 0) := by
    rw [hf.start]
    rintro (h | h)
    · exact htype h
    · omega
  rw [Table.getlk, if_neg hstart]
  cases hmin : (t.locks.filter fun l => f.conflicts l && f.overlaps l).argmin Lock.start with
  | some l =>
    have hl := (hmem l).1 (List.argmin_mem hmin)
    refine .inl ⟨l, hl.1, hl.2, ?_, rfl⟩
    intro k hk hmeets
    exact List.le_of_mem_argmin ((hmem k).2 ⟨hk, hmeets⟩) hmin
  | none =>
    refine .inr ⟨?_, rfl⟩
    intro k hk hmeets
    have hkf := (hmem k).2 ⟨hk, hmeets⟩
    rw [List.argmin_eq_none.1 hmin] at hkf
    exact absurd hkf List.not_mem_nil

theorem flock_type_ne (l : Lock) : l.flock.type ≠ .unlck := by
  obtain ⟨write, start, len, pid, bound⟩ := l
  cases write with
  | true => exact LockType.noConfusion
  | false => exact LockType.noConfusion

theorem body_of_lock (h : t.getlk s.f1 = some l.flock) :
    (body t s).i = l.next ∧ (body t s).f1.start = l.next ∧ (body t s).f1.len = 0 ∧
      (body t s).f1.type = l.flock.type := by
  have hnext : toInt (l.flock.start + l.flock.len) = l.next := by rw [Lock.next, Lock.flock]
  simp only [body, h, hnext, if_pos (flock_type_ne l), and_self]

theorem body_of_none {f : Flock} (h : t.getlk s.f1 = some f) (hf : f.type = .unlck) :
    (body t s).i = toInt (s.i + 1) ∧ (body t s).f1.type = .unlck := by
  simp [body, h, hf]

theorem body_of_unlck (h : s.f1.type = .unlck) :
    (body t s).i = toInt (s.i + 1) ∧ (body t s).f1.type = .unlck := by
  simp [body, getlk_unlck h, h]

/-- The scanner stands at a position and asks for all bytes from there on. -/
structure At (s : State) (n : Nat) : Prop where
  i : s.i = n
  from_i : s.f1.From n
  type : s.f1.type ≠ .unlck

/-- The scanner has just reported the lock. -/
structure Behind (s : State) (l : Lock) : Prop where
  i : s.i = l.next
  f1 : s.f1 = l.request

theorem at_init : At State.init 0 := ⟨rfl, ⟨rfl, rfl⟩, by decide⟩

/-- Behind a lock whose end has not been cut off. -/
theorem at_body_of_lock (h : t.getlk s.f1 = some l.flock) (hnext : l.next = l.start + l.len) :
    At (body t s) (l.start + l.len) := by
  obtain ⟨hi, hstart, hlen, htype⟩ := body_of_lock h
  rw [hnext, ← Int.natCast_add] at hi hstart
  refine ⟨hi, ⟨hstart, hlen⟩, ?_⟩
  rw [htype]
  exact flock_type_ne l

/-! ### The loop ends -/

/-- Once the type is `F_UNLCK` the loop only counts, at most up to the largest `int`. -/
private theorem ends_of_unlck (htype : s.f1.type = .unlck) (hlow : -2 ^ 31 ≤ s.i) (hi : s.i < 2 ^ 31) :
    Ends t len s := by
  induction hk : (2 ^ 31 - s.i).toNat generalizing s with
  | zero => omega
  | succ k ih =>
    obtain ⟨hnext, htype'⟩ := body_of_unlck (t := t) htype
    apply Ends.of_body
    by_cases hlast : s.i + 1 < 2 ^ 31
    · rw [toInt_eq (by omega) hlast] at hnext
      apply ih htype'
      · omega
      · omega
      · omega
    · -- the largest `int` is followed by the smallest one, which is a huge `size_t`
      apply ends_of_not_inside
      intro hin
      have hwrap : (body t s).i = -2 ^ 31 := by
        have hmax : s.i = 2 ^ 31 - 1 := by omega
        rw [hnext, hmax]
        decide
      have hpos := hin.nonneg (by omega)
      omega

/-- Without a lock in the answer. -/
theorem ends_of_none {f : Flock} (h : t.getlk s.f1 = some f) (hf : f.type = .unlck) : Ends t len s := by
  obtain ⟨hi, htype⟩ := body_of_none h hf
  apply Ends.of_body
  apply ends_of_unlck htype
  · rw [hi]
    exact le_toInt _
  · rw [hi]
    exact toInt_lt _

/-- After a read lock up to any end of file there is no write lock to be found. -/
private theorem not_meets_of_read (hl : l ∈ t.locks) (hread : l.write = false) (hlen : l.len = 0) {f : Flock}
    (hf : f.From l.start) (htype : f.type = .rdlck) {k : Lock} (hk : k ∈ t.locks) : ¬ f.Meets k := by
  intro hmeets
  have hwrite : k.write = true := by
    have h := hmeets.conflicts
    rwa [Flock.conflicts, htype] at h
  have hne : k ≠ l := by
    intro heq
    rw [heq, hread] at hwrite
    cases hwrite
  have hover := (overlaps_from hf).1 hmeets.overlaps
  rcases t.exclusive.forall hk hl hne (.inl hwrite) with h | h
  · have hlt := hover h.1
    have hle := h.2
    omega
  · exact h.1 hlen

/-! ### From one answer to the next -/

private theorem behind_body (h : t.getlk s.f1 = some l.flock) : Behind (body t s) l := by
  have hnext : toInt (l.flock.start + l.flock.len) = l.next := by rw [Lock.next, Lock.flock]
  constructor
  · exact (body_of_lock h).1
  · simp only [body, h, hnext, if_pos (flock_type_ne l), Lock.request]

private theorem flock_inj {k : Lock} (h : k.flock = l.flock) : k = l := by
  obtain ⟨kwrite, kstart, klen, kpid, kbound⟩ := k
  obtain ⟨lwrite, lstart, llen, lpid, lbound⟩ := l
  simp only [Lock.flock, Flock.mk.injEq, Int.natCast_inj] at h
  obtain ⟨htype, rfl, rfl, rfl⟩ := h
  have hwrite : kwrite = lwrite := by
    cases kwrite <;> cases lwrite <;> simp_all
  rw [hwrite]

theorem Table.Follows.unique {k j : Lock} (hk : t.Follows len l k) (hj : t.Follows len l j) : k = j :=
  flock_inj (Option.some.inj (hk.2.2.symm.trans hj.2.2))

private theorem request_start (l : Lock) : l.request.start = l.next := by simp only [Lock.request]

theorem exists_from_next {f : Flock} (hin : Inside len l.next) (hstart : f.start = l.next) (hlen : f.len = 0) :
    ∃ p : Nat, f.From p ∧ l.next = p := by
  have hpos : 0 ≤ l.next := hin.nonneg (le_toInt _)
  refine ⟨l.next.toNat, ⟨?_, hlen⟩, ?_⟩
  · rw [hstart]
    omega
  · omega

/-- The request behind a lock, where the position is inside the file. -/
private theorem exists_request_from (hin : Inside len l.next) : ∃ n : Nat, l.request.From n ∧ l.next = n :=
  exists_from_next hin (request_start l) rfl

private theorem request_type_ne (l : Lock) : l.request.type ≠ .unlck := flock_type_ne l

/-- The answer overlaps the request. -/
private theorem Table.Follows.meets {k : Lock} (h : t.Follows len l k) : l.request.Meets k := by
  obtain ⟨n, hfrom, -⟩ := exists_request_from h.2.1
  rcases getlk_cases (t := t) (request_type_ne l) hfrom with ⟨j, -, hmeets, -, hget⟩ | ⟨-, hget⟩
  · rwa [flock_inj (Option.some.inj (h.2.2.symm.trans hget))]
  · have hflock : k.flock = { l.request with type := .unlck } := Option.some.inj (h.2.2.symm.trans hget)
    exact absurd (congrArg Flock.type hflock) (flock_type_ne k)

/-- Behind a lock the scanner comes to the next one, or ends. -/
theorem Behind.next (hs : Behind s l) :
    (∃ k, t.Follows len l k ∧ Behind (body t s) k) ∨ Ends t len s := by
  by_cases hin : Inside len l.next
  · obtain ⟨n, hfrom, -⟩ := exists_request_from hin
    rcases getlk_cases (t := t) (request_type_ne l) hfrom with ⟨k, hk, -, -, hget⟩ | ⟨-, hget⟩
    · exact .inl ⟨k, ⟨hk, hin, hget⟩, behind_body (by rw [hs.f1]; exact hget)⟩
    · rw [← hs.f1] at hget
      exact .inr (ends_of_none hget rfl)
  · rw [← hs.i] at hin
    exact .inr (ends_of_not_inside hin)

private theorem Behind.body_of_follows {k : Lock} (hs : Behind s l) (h : t.Follows len l k) :
    Inside len s.i ∧ Behind (body t s) k := by
  constructor
  · rw [hs.i]
    exact h.2.1
  · apply behind_body
    rw [hs.f1]
    exact h.2.2

/-- The run comes to every lock that is scanned. -/
private theorem Table.Scanned.exists_behind (h : t.Scanned len l) :
    ∃ s, Behind s l ∧ (Ends t len .init → Ends t len s) := by
  induction h with
  | first hl hin hget =>
    refine ⟨body t .init, behind_body hget, fun hends => ?_⟩
    obtain ⟨s', hends⟩ := hends
    exact ⟨s', hends.body hin⟩
  | next hl hk ih =>
    obtain ⟨s, hs, hends⟩ := ih
    obtain ⟨hin, hbehind⟩ := hs.body_of_follows hk
    refine ⟨body t s, hbehind, fun hinit => ?_⟩
    obtain ⟨s', hend⟩ := hends hinit
    exact ⟨s', hend.body hin⟩

private theorem Table.Scanned.of_transGen {k : Lock} (hl : t.Scanned len l)
    (h : Relation.TransGen (t.Follows len) l k) :
    t.Scanned len k := by
  induction h with
  | single hk => exact hl.next hk
  | tail _ hk ih => exact ih.next hk

theorem Table.Scanned.mem (h : t.Scanned len l) : l ∈ t.locks := by
  cases h with
  | first hl => exact hl
  | next _ hk => exact hk.1

/-! ### The loop does not end -/

/-- Once the scanner is at a lock to which it comes back, there is always a next lock. -/
private theorem not_ends_of_comesBack {k : Lock} (hs : Behind s k) (hk : Relation.ReflTransGen (t.Follows len) k l)
    (hl : t.ComesBack len l) : ¬ Ends t len s := by
  rintro ⟨s', fuel, hloop⟩
  induction fuel generalizing s k with
  | zero => cases hloop
  | succ fuel ih =>
    obtain ⟨j, hkj, hjl⟩ : ∃ j, t.Follows len k j ∧ Relation.ReflTransGen (t.Follows len) j l := by
      rcases hk.cases_head with rfl | hnext
      · exact Relation.TransGen.head'_iff.1 hl
      · exact hnext
    obtain ⟨hin, hj⟩ := hs.body_of_follows hkj
    rw [loop_succ hin] at hloop
    exact ih hj hjl hloop

/-- A write lock up to any end of file is the answer to the request behind it. -/
private theorem follows_self (hl : l ∈ t.locks) (hin : Inside len l.next) (hnext : l.next = l.start + l.len)
    (hwrite : l.write = true) (hlen : l.len = 0) : t.Follows len l l := by
  obtain ⟨n, hfrom, hn⟩ := exists_request_from hin
  have hmeets : l.request.Meets l := by
    constructor
    · rw [Flock.conflicts, Lock.request, Lock.flock, if_pos hwrite]
    · exact (overlaps_from hfrom).2 fun hne => absurd hlen hne
  refine ⟨hl, hin, ?_⟩
  rcases getlk_cases (t := t) (request_type_ne l) hfrom with ⟨k, hk, hkmeets, -, hget⟩ | ⟨hnone, -⟩
  · by_cases heq : k = l
    · rw [hget, heq]
    · have hover := (overlaps_from hfrom).1 hkmeets.overlaps
      rcases t.exclusive.forall hk hl heq (.inr hwrite) with h | h
      · have hlt := hover h.1
        have hle := h.2
        omega
      · exact absurd hlen h.1
  · exact absurd hmeets (hnone l hl)

/-! ### The loop ends -/

/-- From a lock that the scanner gets past, it comes to a lock that ends later, if it goes on behind that one. -/
private theorem end_lt_of_follows {k j : Lock} (hl : l.Passed len) (hk : k.Passed len) (hlk : t.Follows len l k)
    (hkj : t.Follows len k j) : l.start + l.len < k.start + k.len := by
  have hlnext : l.next = l.start + l.len := (hl.resolve_left (not_not.2 hlk.2.1)).1
  obtain ⟨hknext, hkwrite⟩ := hk.resolve_left (not_not.2 hkj.2.1)
  have hlen : k.len ≠ 0 := by
    intro hlen
    -- it is a read lock, and the reader finds nothing behind it
    have hread : k.write = false := by
      rw [← Bool.not_eq_true]
      exact fun hw => hkwrite hw hlen
    obtain ⟨n, hfrom, hn⟩ := exists_request_from hkj.2.1
    have hstart : k.request.From k.start := by
      obtain rfl : n = k.start := by omega
      exact hfrom
    have htype : k.request.type = .rdlck := by
      rw [Lock.request, Lock.flock, hread]
      rfl
    exact not_meets_of_read hlk.1 hread hlen hstart htype hkj.1 hkj.meets
  obtain ⟨n, hfrom, hn⟩ := exists_request_from hlk.2.1
  have hover := (overlaps_from hfrom).1 hlk.meets.overlaps hlen
  omega

/-- If the scanner comes back to a lock, then to one that it does not get past. -/
private theorem not_comesBack (hpast : ∀ l, t.Scanned len l → l.Passed len ∨ (l.TurnsBack len ∧ ¬ t.ComesBack len l))
    (hl : t.Scanned len l) : ¬ t.ComesBack len l := by
  intro hcycle
  have hpassed : ∀ k, Relation.TransGen (t.Follows len) l k → Relation.ReflTransGen (t.Follows len) k l →
      k.Passed len := by
    intro k hlk hkl
    refine (hpast k (hl.of_transGen hlk)).resolve_right fun hturn => hturn.2 ?_
    exact Relation.TransGen.trans_right hkl hlk
  -- the ends of the locks grow along the way back
  have hgrow : ∀ k, Relation.TransGen (t.Follows len) l k → Relation.ReflTransGen (t.Follows len) k l →
      l.start + l.len < k.start + k.len := by
    intro k hlk
    induction hlk with
    | single hk =>
      intro hkl
      obtain ⟨j, hkj, -⟩ := Relation.TransGen.head'_iff.1 (Relation.TransGen.trans_right hkl hcycle)
      exact end_lt_of_follows (hpassed l hcycle .refl) (hpassed _ (.single hk) hkl) hk hkj
    | @tail m k hlm hmk ih =>
      intro hkl
      have hml : Relation.ReflTransGen (t.Follows len) m l := .head hmk hkl
      obtain ⟨j, hkj, -⟩ := Relation.TransGen.head'_iff.1 (Relation.TransGen.trans_right hkl hcycle)
      have hlt := end_lt_of_follows (hpassed m hlm hml) (hpassed k (hlm.tail hmk) hkl) hmk hkj
      have hlt' := ih hml
      omega
  exact absurd (hgrow l hcycle .refl) (Nat.lt_irrefl _)

/-- There are finitely many locks, so the scanner ends if it comes back to none. -/
private theorem ends_of_not_comesBack (hnot : ∀ l, t.Scanned len l → ¬ t.ComesBack len l) (hl : t.Scanned len l)
    (hs : Behind s l) : Ends t len s := by
  let r : { l // l ∈ t.locks } → { l // l ∈ t.locks } → Prop := fun k l =>
    t.Scanned len l ∧ Relation.TransGen (t.Follows len) l.1 k.1
  have hfinite : Finite { l // l ∈ t.locks } := t.locks.finite_toSet
  have htrans : IsTrans _ r := ⟨fun _ _ _ hab hbc => ⟨hbc.1, hbc.2.trans hab.2⟩⟩
  have hirrefl : Std.Irrefl r := ⟨fun l hll => hnot l.1 hll.1 hll.2⟩
  obtain ⟨m, rfl⟩ : ∃ m : { l // l ∈ t.locks }, m.1 = l := ⟨⟨l, hl.mem⟩, rfl⟩
  induction m using (Finite.wellFounded_of_trans_of_irrefl r).induction generalizing s with
  | _ m ih =>
    rcases @Behind.next t len _ _ hs with ⟨k, hk, hbehind⟩ | hends
    · exact Ends.of_body (ih ⟨k, hk.1⟩ ⟨hl, .single hk⟩ (hl.next hk) hbehind)
    · exact hends

/-- For every table and every length of the file: the scanner ends if and only if it gets past every lock that it comes
by. -/
theorem getlk_terminates (t : Table) (len : Fin (2 ^ 63)) :
    Ends t len .init ↔
      ∀ l, t.Scanned len l → l.Passed len ∨ (l.TurnsBack len ∧ ¬ t.ComesBack len l) := by
  constructor
  · intro hends l hl
    obtain ⟨s, hs, hkeep⟩ := hl.exists_behind
    have hnot : ¬ t.ComesBack len l := fun hcycle => not_ends_of_comesBack hs .refl hcycle (hkeep hends)
    by_cases hin : Inside len l.next
    · by_cases hnext : l.next = l.start + l.len
      · exact .inl (.inr ⟨hnext, fun hwrite hlen => hnot (.single (follows_self hl.mem hin hnext hwrite hlen))⟩)
      · exact .inr ⟨⟨hin, hnext⟩, hnot⟩
    · exact .inl (.inl hin)
  · intro hpast
    by_cases hin : Inside len State.init.i
    · rcases getlk_cases (t := t) at_init.type at_init.from_i with ⟨l, hl, -, -, hget⟩ | ⟨-, hget⟩
      · have hscanned : t.Scanned len l := .first hl hin hget
        exact Ends.of_body (ends_of_not_comesBack (fun _ => not_comesBack hpast) hscanned (behind_body hget))
      · exact ends_of_none hget rfl
    · exact ends_of_not_inside hin

/-- The two locks that `setlk.c` takes, in a file of ten bytes. -/
example : Ends ⟨[⟨true, 1, 1, 0, by decide⟩, ⟨true, 5, 2, 0, by decide⟩], by decide⟩ 10 .init := ⟨_, 6, by rfl⟩

/-- The end of the write lock is cut off to 1; the read lock in front of it, which is met from there, ends behind the
largest `int`, and so does the scan. -/
example : Ends ⟨[⟨false, 0, 2 ^ 31, 0, by decide⟩, ⟨true, 2 ^ 31, 2 ^ 31 + 1, 0, by decide⟩], by decide⟩ 10 .init :=
  ⟨_, 3, by rfl⟩

/-- A write lock from byte 3 on, up to any end of file, in a file of ten bytes. -/
theorem getlk_loops : ¬ Ends ⟨[⟨true, 3, 0, 0, by decide⟩], by decide⟩ 10 .init := by
  intro hends
  have hscanned : Table.Scanned ⟨[⟨true, 3, 0, 0, by decide⟩], by decide⟩ 10 ⟨true, 3, 0, 0, by decide⟩ :=
    .first (List.mem_singleton.2 rfl) (by decide) (by decide)
  obtain ⟨s, hs, hkeep⟩ := hscanned.exists_behind
  exact not_ends_of_comesBack hs .refl (.single (follows_self hscanned.mem (by decide) (by decide) rfl rfl))
    (hkeep hends)

end UnixTasks.Flocks
