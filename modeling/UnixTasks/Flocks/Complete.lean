import UnixTasks.Flocks.Getlk

/-!
# Which locks the scanner reports

An answer leaves its own type in the request, and the type decides what the next request meets: behind a write lock
that is every lock, but behind a read lock, and at the beginning, only the write locks.  So of locks that do not overlap
the scanner finds the write locks and the read locks directly behind a write lock (`Table.Shown`), as long as the
position behind each of them, as an `int`, lies inside the file (`Table.Reached`).

Where a position is cut off to a smaller one, the next request starts inside or before the lock just reported.  Only
behind a read lock can it still meet nothing but later locks (`Table.Straight`).

The main result (`getlk_complete`) says that these two conditions are all: the scanner reports every lock in the file,
each once and in order, if and only if it reaches all of them and every lock that it reaches is straight.
-/

namespace UnixTasks.Flocks

/-- Neither lock reaches into the other one. -/
def Lock.Apart (l k : Lock) : Prop := l.Before k ∨ k.Before l

instance Lock.decidableApart (l k : Lock) : Decidable (l.Apart k) := inferInstanceAs (Decidable (_ ∨ _))

instance Lock.apart_symm : Std.Symm Lock.Apart := ⟨fun _ _ => Or.symm⟩

namespace Table

/-- Locks of finite length that do not overlap. -/
structure Disjoint (t : Table) : Prop where
  apart : t.locks.Pairwise Lock.Apart
  finite : ∀ l ∈ t.locks, l.len ≠ 0

/-- No lock starts between the two. -/
def DirectlyBefore (t : Table) (k l : Lock) : Prop :=
  k.start < l.start ∧ ∀ j ∈ t.locks, j.start < l.start → j.start ≤ k.start

/-- A write lock, or directly behind one. -/
def Shown (t : Table) (l : Lock) : Prop :=
  l.write = true ∨ ∃ k ∈ t.locks, k.write = true ∧ t.DirectlyBefore k l

/-- The loop goes on behind all locks in front of this one. -/
def Reached (t : Table) (len : Fin (2 ^ 63)) (l : Lock) : Prop :=
  t.Shown l ∧ ∀ k ∈ t.locks, k.start < l.start → t.Shown k → Inside len k.next

/-- Where the position behind the lock is cut off, the lock is a read lock and all earlier write locks end there. -/
def Straight (t : Table) (len : Fin (2 ^ 63)) (l : Lock) : Prop :=
  l.TurnsBack len → l.write = false ∧ ∀ k ∈ t.locks, k.write = true → k.start < l.start → k.start + k.len ≤ l.next

/-- The lowest lock from a position on that can be found. -/
structure Lowest (t : Table) (n : Nat) (l : Lock) : Prop where
  mem : l ∈ t.locks
  le : n ≤ l.start
  shown : t.Shown l
  lowest : ∀ k ∈ t.locks, n ≤ k.start → t.Shown k → l.start ≤ k.start

/-- The answer is the lowest lock from the position on, or there is none. -/
def Finds (t : Table) (f : Flock) (n : Nat) : Prop :=
  (∃ l, t.Lowest n l ∧ t.getlk f = some l.flock) ∨
  ((∀ l ∈ t.locks, n ≤ l.start → ¬ t.Shown l) ∧ t.getlk f = some { f with type := .unlck })

end Table

/-- Every lock that overlaps the file is reported once, in order, as it is. -/
structure Complete (t : Table) (len : Fin (2 ^ 63)) (printed : List Flock) : Prop where
  own : ∀ f ∈ printed, ∃ l ∈ t.locks, f = l.flock
  increasing : printed.Pairwise fun f g => f.start < g.start
  all : ∀ l ∈ t.locks, l.start < (len : Nat) → l.flock ∈ printed

variable {t : Table} {len : Fin (2 ^ 63)} {s s' : State} {k l : Lock} {n : Nat}

/-! ### Order -/

private theorem Table.Disjoint.end_le (ht : t.Disjoint) (hl : l ∈ t.locks) (hk : k ∈ t.locks) (h : l.start < k.start) :
    l.start + l.len ≤ k.start := by
  have hne : l ≠ k := by
    intro heq
    rw [heq] at h
    omega
  rcases ht.apart.forall hl hk hne with hlk | hkl
  · exact hlk.2
  · have hle := hkl.2
    omega

private theorem Table.Disjoint.eq_of_start (ht : t.Disjoint) (hl : l ∈ t.locks) (hk : k ∈ t.locks)
    (h : l.start = k.start) :
    l = k := by
  by_contra hne
  have hl0 := ht.finite l hl
  have hk0 := ht.finite k hk
  rcases ht.apart.forall hl hk hne with hlk | hkl
  · have hle := hlk.2
    omega
  · have hle := hkl.2
    omega

private theorem next_le (l : Lock) : l.next ≤ l.start + l.len := by
  by_cases h : l.start + l.len < 2 ^ 31
  · rw [Lock.next, toInt_eq (by omega) (by omega)]
  · have hlt := toInt_lt (l.start + l.len)
    rw [Lock.next]
    omega

/-- Nothing is cut off where the locks end below the largest `int`. -/
theorem straight_of_small (h : l.start + l.len < 2 ^ 31) : t.Straight len l := by
  intro hturn
  exact absurd (toInt_eq (by omega) (by omega)) hturn.2

/-- There the scanner reaches the write locks in the file and the read locks directly behind a write lock. -/
theorem reached_iff_of_small (ht : t.Disjoint) (hsmall : ∀ k ∈ t.locks, k.start + k.len < 2 ^ 31) (hl : l ∈ t.locks)
    (hlt : l.start < (len : Nat)) : t.Reached len l ↔ t.Shown l := by
  refine ⟨And.left, fun hshown => ⟨hshown, fun k hk hkl _ => ?_⟩⟩
  have hle := ht.end_le hk hl hkl
  have hk31 := hsmall k hk
  have hlen := len.isLt
  have hnext : k.next = k.start + k.len := toInt_eq (by omega) (by omega)
  rw [hnext, ← Int.natCast_add, inside_ofNat (by omega)]
  omega

/-! ### One answer -/

private theorem meets_of_write {f : Flock} (hf : f.From n) (htype : f.type ≠ .unlck) (hk : k.write = true)
    (hlt : n < k.start + k.len) : f.Meets k := by
  constructor
  · rw [Flock.conflicts]
    cases h : f.type with
    | rdlck => exact hk
    | wrlck => rfl
    | unlck => exact absurd h htype
  · exact (overlaps_from hf).2 fun _ => hlt

private theorem write_of_meets {f : Flock} (htype : f.type = .rdlck) (h : f.Meets k) : k.write = true := by
  have hc := h.conflicts
  rwa [Flock.conflicts, htype] at hc

/-- The lowest lock that the request meets is the lowest one to be found, if it finds locks from the position on and
meets one up to every lock to be found. -/
private theorem finds_of {f : Flock} {p : Nat} (hf : f.From p) (htype : f.type ≠ .unlck)
    (habove : ∀ k ∈ t.locks, f.Meets k → n ≤ k.start)
    (hcover : ∀ k ∈ t.locks, n ≤ k.start → t.Shown k → ∃ j ∈ t.locks, f.Meets j ∧ j.start ≤ k.start)
    (hshown : ∀ k ∈ t.locks, f.Meets k → (∀ j ∈ t.locks, f.Meets j → k.start ≤ j.start) → t.Shown k) :
    t.Finds f n := by
  rcases getlk_cases (t := t) htype hf with ⟨k, hk, hmeets, hlowest, hget⟩ | ⟨hnone, hget⟩
  · refine .inl ⟨k, ⟨hk, habove k hk hmeets, hshown k hk hmeets hlowest, ?_⟩, hget⟩
    intro j hj hn hjshown
    obtain ⟨i, hi, himeets, hle⟩ := hcover j hj hn hjshown
    have hki := hlowest i hi himeets
    omega
  · refine .inr ⟨?_, hget⟩
    intro k hk hn hkshown
    obtain ⟨j, hj, hmeets, -⟩ := hcover k hk hn hkshown
    exact hnone j hj hmeets

/-- At the beginning, as a reader. -/
private theorem finds_init (ht : t.Disjoint) : t.Finds State.init.f1 0 := by
  have hf : State.init.f1.From 0 := at_init.from_i
  apply finds_of hf at_init.type
  · intro k _ _
    omega
  · intro k hk _ hshown
    rcases hshown with hw | ⟨j, hj, hw, hlt, -⟩
    · have h0 := ht.finite k hk
      exact ⟨k, hk, meets_of_write hf at_init.type hw (by omega), Nat.le_refl _⟩
    · have h0 := ht.finite j hj
      exact ⟨j, hj, meets_of_write hf at_init.type hw (by omega), by omega⟩
  · intro k _ hmeets _
    exact .inl (write_of_meets rfl hmeets)

/-- Behind a straight lock the request meets only later locks. -/
private theorem above_of_meets (ht : t.Disjoint) (hl : l ∈ t.locks) (hin : Inside len l.next)
    (hstraight : t.Straight len l)
    {f : Flock} {p : Nat} (hf : f.From p) (hp : l.next = p) (htype : f.type = l.flock.type) (hk : k ∈ t.locks)
    (hmeets : f.Meets k) : l.start + l.len ≤ k.start := by
  have hover : p < k.start + k.len := (overlaps_from hf).1 hmeets.overlaps (ht.finite k hk)
  by_cases hlk : l.start < k.start
  · exact ht.end_le hl hk hlk
  · -- then the position has been cut off, and the request is that of a reader
    have hend : k.start + k.len ≤ l.start + l.len := by
      by_cases heq : k.start = l.start
      · rw [ht.eq_of_start hk hl heq]
      · have hle := ht.end_le hk hl (by omega)
        omega
    obtain ⟨hread, hwrites⟩ := hstraight ⟨hin, by omega⟩
    rw [Lock.flock, hread] at htype
    have hw := write_of_meets htype hmeets
    have hne : k.start ≠ l.start := by
      intro heq
      rw [ht.eq_of_start hk hl heq, hread] at hw
      cases hw
    have hle := hwrites k hk hw (by omega)
    omega

/-- Behind a straight lock. -/
private theorem finds_behind (ht : t.Disjoint) (hl : l ∈ t.locks) (hin : Inside len l.next)
    (hstraight : t.Straight len l)
    {f : Flock} (hstart : f.start = l.next) (hlen : f.len = 0) (htype : f.type = l.flock.type) :
    t.Finds f (l.start + l.len) := by
  obtain ⟨p, hf, hp⟩ := exists_from_next hin hstart hlen
  have hunlck : f.type ≠ .unlck := by
    rw [htype]
    exact flock_type_ne l
  have hple := next_le l
  -- a request left behind by a write lock meets everything behind it
  have hall : l.write = true → ∀ k ∈ t.locks, l.start < k.start → f.Meets k := by
    intro hw k hk hlt
    have hle := ht.end_le hl hk hlt
    have hk0 := ht.finite k hk
    refine ⟨?_, (overlaps_from hf).2 fun _ => by omega⟩
    rw [Flock.conflicts, htype, Lock.flock, hw]
    rfl
  apply finds_of hf hunlck
  · intro k hk hmeets
    exact above_of_meets ht hl hin hstraight hf hp htype hk hmeets
  · intro k hk hle hshown
    have hl0 := ht.finite l hl
    rcases hshown with hw | ⟨j, hj, hw, hlt, hdirect⟩
    · have hk0 := ht.finite k hk
      exact ⟨k, hk, meets_of_write hf hunlck hw (by omega), Nat.le_refl _⟩
    · have hlj := hdirect l hl (by omega)
      by_cases heq : j.start = l.start
      · rw [ht.eq_of_start hj hl heq] at hw
        exact ⟨k, hk, hall hw k hk (by omega), Nat.le_refl _⟩
      · have hjl := ht.end_le hl hj (by omega)
        have hj0 := ht.finite j hj
        exact ⟨j, hj, meets_of_write hf hunlck hw (by omega), by omega⟩
  · intro k hk hmeets hlowest
    have hlk := above_of_meets ht hl hin hstraight hf hp htype hk hmeets
    have hl0 := ht.finite l hl
    by_cases hw : l.write = true
    · refine .inr ⟨l, hl, hw, by omega, ?_⟩
      intro j hj hjk
      by_contra hlj
      have hkj := hlowest j hj (hall hw j hj (by omega))
      omega
    · rw [Bool.not_eq_true] at hw
      rw [Lock.flock, hw] at htype
      exact .inl (write_of_meets htype hmeets)

/-- Behind a lock that is not straight the answer is that lock or an earlier one. -/
private theorem getlk_of_not_straight (hl : l ∈ t.locks) (hnot : ¬ t.Straight len l) {f : Flock}
    (hstart : f.start = l.next) (hlen : f.len = 0) (htype : f.type = l.flock.type) :
    ∃ k : Lock, k.start ≤ l.start ∧ t.getlk f = some k.flock := by
  rw [Table.Straight, Classical.not_imp] at hnot
  obtain ⟨⟨hin, hcut⟩, hnot⟩ := hnot
  obtain ⟨p, hf, hp⟩ := exists_from_next hin hstart hlen
  have hunlck : f.type ≠ .unlck := by
    rw [htype]
    exact flock_type_ne l
  have hple := next_le l
  have hmet : ∃ j ∈ t.locks, j.start ≤ l.start ∧ f.Meets j := by
    by_cases hw : l.write = true
    · exact ⟨l, hl, Nat.le_refl _, meets_of_write hf hunlck hw (by omega)⟩
    · rw [Bool.not_eq_true] at hw
      by_contra hnone
      refine hnot ⟨hw, fun j hj hjw hlt => ?_⟩
      by_contra hgt
      exact hnone ⟨j, hj, by omega, meets_of_write hf hunlck hjw (by omega)⟩
  obtain ⟨j, hj, hjl, hmeets⟩ := hmet
  rcases getlk_cases (t := t) hunlck hf with ⟨k, -, -, hlowest, hget⟩ | ⟨hnone, -⟩
  · have hkj := hlowest j hj hmeets
    exact ⟨k, by omega, hget⟩
  · exact absurd hmeets (hnone j hj)

/-! ### The loop -/

private theorem EndsIn.eq_of_not_inside (hin : ¬ Inside len s.i) (h : EndsIn t len s s') : s' = s := by
  obtain ⟨fuel, hloop⟩ := h
  cases fuel with
  | zero => cases hloop
  | succ fuel =>
    rw [loop, if_neg hin] at hloop
    exact (Option.some.inj hloop).symm

theorem EndsIn.unique {a b : State} (ha : EndsIn t len s a) (hb : EndsIn t len s b) : a = b := by
  obtain ⟨fuel, hloop⟩ := ha
  induction fuel generalizing s with
  | zero => cases hloop
  | succ fuel ih =>
    by_cases hin : Inside len s.i
    · rw [loop_succ hin] at hloop
      exact ih (hb.body hin) hloop
    · rw [loop, if_neg hin] at hloop
      rw [hb.eq_of_not_inside hin]
      exact (Option.some.inj hloop).symm

private theorem printed_of_lock (h : t.getlk s.f1 = some l.flock) : (body t s).printed = s.printed ++ [l.flock] := by
  simp only [body, h, if_pos (flock_type_ne l)]

private theorem printed_prefix_body : s.printed <+: (body t s).printed := by
  rw [body]
  split
  · split
    · exact List.prefix_append _ _
    · exact List.prefix_rfl
  · exact List.prefix_rfl

private theorem EndsIn.prefix_printed (h : EndsIn t len s s') : s.printed <+: s'.printed := by
  obtain ⟨fuel, hloop⟩ := h
  induction fuel generalizing s with
  | zero => cases hloop
  | succ fuel ih =>
    by_cases hin : Inside len s.i
    · rw [loop_succ hin] at hloop
      exact printed_prefix_body.trans (ih hloop)
    · rw [loop, if_neg hin] at hloop
      obtain rfl : s = s' := Option.some.inj hloop
      exact List.prefix_rfl

/-- Once the type is `F_UNLCK` nothing more is reported. -/
private theorem EndsIn.printed_of_unlck (htype : s.f1.type = .unlck) (h : EndsIn t len s s') :
    s'.printed = s.printed := by
  obtain ⟨fuel, hloop⟩ := h
  induction fuel generalizing s with
  | zero => cases hloop
  | succ fuel ih =>
    by_cases hin : Inside len s.i
    · rw [loop_succ hin] at hloop
      rw [ih (body_of_unlck htype).2 hloop]
      simp only [UnixTasks.Flocks.body, getlk_unlck htype]
    · rw [loop, if_neg hin] at hloop
      rw [Option.some.inj hloop]

/-- Without a lock in the answer the loop counts to its end. -/
private theorem exists_endsIn_of_none (hin : Inside len s.i) {f : Flock} (h : t.getlk s.f1 = some f)
    (hf : f.type = .unlck) :
    ∃ s', EndsIn t len s s' ∧ s'.printed = s.printed := by
  obtain ⟨s', hends⟩ : Ends t len s := ends_of_none h hf
  refine ⟨s', hends, ?_⟩
  rw [(hends.body hin).printed_of_unlck (body_of_none h hf).2]
  simp [body, h, hf]

/-- All locks that start below the end of the lowest lock start below the position or are that lock. -/
private theorem inside_below (ht : t.Disjoint) (hk : t.Lowest n k) (hin : Inside len k.next)
    (hbelow : ∀ j ∈ t.locks, j.start < n → t.Shown j → Inside len j.next) {j : Lock} (hj : j ∈ t.locks)
    (hlt : j.start < k.start + k.len) (hshown : t.Shown j) : Inside len j.next := by
  by_cases hjn : j.start < n
  · exact hbelow j hj hjn hshown
  · have hkj := hk.lowest j hj (by omega) hshown
    have heq : k.start = j.start := by
      by_contra hne
      have hle := ht.end_le hk.mem hj (by omega)
      omega
    rwa [← ht.eq_of_start hk.mem hj heq]

private theorem reached_of_lowest (hk : t.Lowest n k)
    (hbelow : ∀ j ∈ t.locks, j.start < n → t.Shown j → Inside len j.next) :
    t.Reached len k := by
  refine ⟨hk.shown, fun j hj hlt hshown => hbelow j hj ?_ hshown⟩
  by_contra hnj
  have hkj := hk.lowest j hj (by omega) hshown
  omega

/-- While all locks that it reaches are straight the scanner reports just these. -/
private theorem reports_reached (ht : t.Disjoint) (hin : Inside len s.i) (hfinds : t.Finds s.f1 n)
    (hbelow : ∀ k ∈ t.locks, k.start < n → t.Shown k → Inside len k.next)
    (hstraight : ∀ k ∈ t.locks, t.Reached len k → t.Straight len k) :
    ∃ (s' : State) (ks : List Lock), EndsIn t len s s' ∧ s'.printed = s.printed ++ ks.map Lock.flock ∧
      ks.Pairwise (fun k l => k.start < l.start) ∧ ∀ k, k ∈ ks ↔ k ∈ t.locks ∧ n ≤ k.start ∧ t.Reached len k := by
  -- the position grows with every lock, up to 2 ^ 63
  induction hm : 2 ^ 63 - n using Nat.strong_induction_on generalizing s n with
  | _ m ih =>
    rcases hfinds with ⟨k, hk, hget⟩ | ⟨hnone, hget⟩
    · have hreached := reached_of_lowest hk hbelow
      obtain ⟨hi, hstart, hlen, htype⟩ := body_of_lock hget
      by_cases hnext : Inside len k.next
      · have hin' : Inside len (body t s).i := by rwa [hi]
        have hfinds' := finds_behind ht hk.mem hnext (hstraight k hk.mem hreached) hstart hlen htype
        have hk0 := ht.finite k hk.mem
        have hkn := hk.le
        have hbound := k.bound
        obtain ⟨s', ks, hends, hprinted, hsorted, hmem⟩ := ih (2 ^ 63 - (k.start + k.len)) (by omega) hin' hfinds'
          (fun j hj => inside_below ht hk hnext hbelow hj) rfl
        refine ⟨s', k :: ks, hends.of_body hin, ?_, ?_, ?_⟩
        · rw [hprinted, printed_of_lock hget, List.map_cons, List.append_assoc, List.singleton_append]
        · refine List.pairwise_cons.2 ⟨fun j hj => ?_, hsorted⟩
          have hle := ((hmem j).1 hj).2.1
          omega
        · intro j
          rw [List.mem_cons, hmem j]
          constructor
          · rintro (rfl | ⟨hj, hle, hjr⟩)
            · exact ⟨hk.mem, hk.le, hreached⟩
            · exact ⟨hj, by omega, hjr⟩
          · rintro ⟨hj, hle, hjr⟩
            have hkj := hk.lowest j hj hle hjr.1
            by_cases heq : k.start = j.start
            · exact .inl (ht.eq_of_start hk.mem hj heq).symm
            · exact .inr ⟨hj, ht.end_le hk.mem hj (by omega), hjr⟩
      · have hout : ¬ Inside len (body t s).i := by rwa [hi]
        refine ⟨body t s, [k], (endsIn_of_not_inside hout).of_body hin, printed_of_lock hget,
          List.pairwise_singleton _ _, ?_⟩
        intro j
        rw [List.mem_singleton]
        constructor
        · rintro rfl
          exact ⟨hk.mem, hk.le, hreached⟩
        · rintro ⟨hj, hle, hjr⟩
          have hkj := hk.lowest j hj hle hjr.1
          by_contra hne
          have heq : k.start ≠ j.start := fun heq => hne (ht.eq_of_start hk.mem hj heq).symm
          exact hnext (hjr.2 k hk.mem (by omega) hk.shown)
    · obtain ⟨s', hends, hprinted⟩ : ∃ s', EndsIn t len s s' ∧ s'.printed = s.printed :=
        exists_endsIn_of_none hin hget rfl
      refine ⟨s', [], hends, by simp [hprinted], List.Pairwise.nil, ?_⟩
      intro j
      constructor
      · intro hj
        cases hj
      · rintro ⟨hj, hle, hjr⟩
        exact absurd hjr.1 (hnone j hj hle)

/-- Two reports that are not in order stay in the output. -/
private theorem not_increasing_of_prefix {fs gs : List Flock} {f g : Flock} (h : fs ++ [f] ++ [g] <+: gs)
    (hle : g.start ≤ f.start) : ¬ gs.Pairwise fun f g => f.start < g.start := by
  intro hgs
  have hpair := hgs.sublist h.sublist
  rw [List.pairwise_append] at hpair
  have hlt := hpair.2.2 f (by simp) g (by simp)
  omega

/-- A lock that is reached and not straight spoils the order. -/
private theorem not_increasing (ht : t.Disjoint) (hin : Inside len s.i) (hfinds : t.Finds s.f1 n)
    (hbelow : ∀ k ∈ t.locks, k.start < n → t.Shown k → Inside len k.next) (hl : l ∈ t.locks) (hle : n ≤ l.start)
    (hreached : t.Reached len l) (hnot : ¬ t.Straight len l) (hends : EndsIn t len s s') :
    ¬ s'.printed.Pairwise fun f g => f.start < g.start := by
  induction hm : 2 ^ 63 - n using Nat.strong_induction_on generalizing s n with
  | _ m ih =>
    rcases hfinds with ⟨k, hk, hget⟩ | ⟨hnone, -⟩
    · obtain ⟨hi, hstart, hlen, htype⟩ := body_of_lock hget
      have hends' := hends.body hin
      by_cases hks : t.Straight len k
      · have hkl : k.start < l.start := by
          have hkl := hk.lowest l hl hle hreached.1
          have hne : k.start ≠ l.start := by
            intro heq
            rw [← ht.eq_of_start hk.mem hl heq] at hnot
            exact hnot hks
          omega
        have hnext := hreached.2 k hk.mem hkl hk.shown
        have hin' : Inside len (body t s).i := by rwa [hi]
        have hk0 := ht.finite k hk.mem
        have hkn := hk.le
        have hbound := k.bound
        exact ih (2 ^ 63 - (k.start + k.len)) (by omega) hin' (finds_behind ht hk.mem hnext hks hstart hlen htype)
          (fun j hj => inside_below ht hk hnext hbelow hj) (ht.end_le hk.mem hl hkl) hends' rfl
      · have hnext : Inside len k.next := by
          by_contra hout
          exact hks fun hturn => absurd hturn.1 hout
        have hin' : Inside len (body t s).i := by rwa [hi]
        obtain ⟨j, hjk, hget'⟩ := getlk_of_not_straight hk.mem hks hstart hlen htype
        have hprefix := (hends'.body hin').prefix_printed
        rw [printed_of_lock hget', printed_of_lock hget] at hprefix
        apply not_increasing_of_prefix hprefix
        show (j.start : Int) ≤ k.start
        omega
    · exact absurd hreached.1 (hnone l hl hle)

private theorem inside_init (h : 0 < (len : Nat)) : Inside len State.init.i := by
  show (0 : Int) % 2 ^ 64 < (len : Nat)
  omega

private theorem flock_start (l : Lock) : l.flock.start = l.start := rfl

/-- The scanner, completely: every lock in the file is reported once, in order and as it is, if and only if all of them
are reached and all locks that are reached are straight. -/
theorem getlk_complete (t : Table) (len : Fin (2 ^ 63)) (ht : t.Disjoint) :
    (∃ s', EndsIn t len .init s' ∧ Complete t len s'.printed) ↔
      (∀ l ∈ t.locks, l.start < (len : Nat) → t.Reached len l) ∧ ∀ l ∈ t.locks, t.Reached len l → t.Straight len l := by
  by_cases hlen : 0 < (len : Nat)
  · have hin := inside_init hlen
    have hfinds := finds_init ht
    have hbelow : ∀ k ∈ t.locks, k.start < 0 → t.Shown k → Inside len k.next := fun k _ h => by omega
    constructor
    · rintro ⟨s', hends, hcomplete⟩
      have hstraight : ∀ l ∈ t.locks, t.Reached len l → t.Straight len l := by
        intro l hl hreached
        by_contra hnot
        exact not_increasing ht hin hfinds hbelow hl (Nat.zero_le _) hreached hnot hends hcomplete.increasing
      refine ⟨fun l hl hlt => ?_, hstraight⟩
      obtain ⟨s'', ks, hends', hprinted, -, hmem⟩ := reports_reached ht hin hfinds hbelow hstraight
      have hl' := hcomplete.all l hl hlt
      rw [hends.unique hends', hprinted] at hl'
      obtain ⟨k, hk, hkl⟩ := List.mem_map.1 hl'
      obtain ⟨hkt, -, hreached⟩ := (hmem k).1 hk
      have hstart : (k.start : Int) = l.start := congrArg Flock.start hkl
      rwa [← ht.eq_of_start hkt hl (by omega)]
    · rintro ⟨hall, hstraight⟩
      obtain ⟨s', ks, hends, hprinted, hsorted, hmem⟩ := reports_reached ht hin hfinds hbelow hstraight
      have hprinted : s'.printed = ks.map Lock.flock := hprinted
      refine ⟨s', hends, ?_, ?_, ?_⟩
      · intro f hf
        rw [hprinted] at hf
        obtain ⟨k, hk, rfl⟩ := List.mem_map.1 hf
        exact ⟨k, ((hmem k).1 hk).1, rfl⟩
      · rw [hprinted, List.pairwise_map]
        refine hsorted.imp fun hlt => ?_
        rw [flock_start, flock_start]
        omega
      · intro l hl hlt
        rw [hprinted]
        exact List.mem_map.2 ⟨l, (hmem l).2 ⟨hl, Nat.zero_le _, hall l hl hlt⟩, rfl⟩
  · -- in an empty file there is nothing to report, and no position
    have hout : ∀ i, ¬ Inside len i := by
      intro i hi
      rw [Inside] at hi
      omega
    refine iff_of_true ⟨.init, endsIn_of_not_inside (hout _), ?_, List.Pairwise.nil, ?_⟩ ⟨?_, ?_⟩
    · intro f hf
      cases hf
    · intro l _ hlt
      omega
    · intro l _ hlt
      omega
    · intro l _ _ hturn
      exact absurd hturn.1 (hout _)

/-- A write lock and a read lock directly behind it. -/
theorem getlk_complete_pair :
    ∃ s', EndsIn ⟨[⟨true, 1, 1, 7, by decide⟩, ⟨false, 2, 3, 8, by decide⟩], by decide⟩ 10 .init s' ∧
      Complete ⟨[⟨true, 1, 1, 7, by decide⟩, ⟨false, 2, 3, 8, by decide⟩], by decide⟩ 10 s'.printed := by
  have ht : Table.Disjoint ⟨[⟨true, 1, 1, 7, by decide⟩, ⟨false, 2, 3, 8, by decide⟩], by decide⟩ :=
    ⟨by decide, by simp⟩
  refine (getlk_complete ⟨[⟨true, 1, 1, 7, by decide⟩, ⟨false, 2, 3, 8, by decide⟩], by decide⟩ 10 ht).2 ⟨?_, ?_⟩
  · intro l hl hlt
    refine (reached_iff_of_small ht (by simp) hl hlt).2 ?_
    rcases List.mem_pair.1 hl with rfl | rfl
    · exact .inl rfl
    · refine .inr ⟨_, List.mem_cons_self, rfl, by decide, ?_⟩
      intro j hj hjl
      rcases List.mem_pair.1 hj with rfl | rfl
      · exact Nat.le_refl _
      · exact absurd hjl (Nat.lt_irrefl _)
  · intro l hl _
    apply straight_of_small
    rcases List.mem_pair.1 hl with rfl | rfl
    · decide
    · decide

/-- A read lock on the only byte of the file: the scanner reports no lock. -/
theorem getlk_misses_read :
    ¬ ∃ s', EndsIn ⟨[⟨false, 0, 1, 7, by decide⟩], by decide⟩ 1 .init s' ∧
      Complete ⟨[⟨false, 0, 1, 7, by decide⟩], by decide⟩ 1 s'.printed := by
  rintro ⟨s', hends, hcomplete⟩
  have hrun : EndsIn ⟨[⟨false, 0, 1, 7, by decide⟩], by decide⟩ 1 .init
      { i := 1, f1 := { type := .unlck, start := 1, len := 0, pid := 0 }, flag := false, printed := [] } := ⟨2, by rfl⟩
  have hall := hcomplete.all ⟨false, 0, 1, 7, by decide⟩ (List.mem_singleton.2 rfl) (by decide)
  rw [hends.unique hrun] at hall
  cases hall

end UnixTasks.Flocks
