import Mathlib.Data.List.Chain
import Mathlib.Data.List.Nodup
import Mathlib.Logic.Function.Basic

/-!
# Circular doubly linked lists

A heap of nodes with two pointers each.  `Ring m head xs` says that the pointers lead from `head` through `xs` and back,
in both directions.

* (`Ring.insert`, `Ring.remove`) a node is put between two neighbours, or taken out;
* (`Ring.congr`) a ring depends on the pointers of its own nodes only;
* (`wellFormed_iff_ring`) that is to say that the two pointers are inverse, and that a walk from the head visits the
  sequence.
-/

/-- The pointers of all nodes. -/
structure Links (A : Type*) where
  next : A → A
  prev : A → A

namespace Links

variable {A : Type*}

/-- `b` is the neighbour after `a`. -/
def Adj (m : Links A) (a b : A) : Prop := m.next a = b ∧ m.prev b = a

/-- The sequence `xs` of the ring with the given head. -/
structure Ring (m : Links A) (head : A) (xs : List A) : Prop where
  nodup : (head :: xs).Nodup
  linked : (head :: xs ++ [head]).IsChain m.Adj

/-- The nodes from `pos` on, up to the head; `none` when the fuel does not suffice. -/
def forEachFrom [DecidableEq A] (m : Links A) (head : A) : Nat → A → Option (List A)
  | 0, _ => none
  | fuel + 1, pos => if pos = head then some [] else (forEachFrom m head fuel (m.next pos)).map (pos :: ·)

/-- The nodes after the head. -/
def forEach [DecidableEq A] (m : Links A) (head : A) (fuel : Nat) : Option (List A) :=
  forEachFrom m head fuel (m.next head)

section Chain

variable {m m' : Links A} {l : List A}

/-- A chain does not depend on the `next` of its last node and on the `prev` of its first. -/
theorem chain_congr (hnext : ∀ a ∈ l.dropLast, m'.next a = m.next a) (hprev : ∀ b ∈ l.tail, m'.prev b = m.prev b)
    (h : l.IsChain m.Adj) : l.IsChain m'.Adj := by
  induction h with
  | nil => exact .nil
  | singleton a => exact .singleton a
  | @cons_cons a b l hab h ih =>
    have hab' : m'.Adj a b := by
      rw [Adj, hnext a (by simp), hprev b (by simp)]
      exact hab
    refine .cons_cons hab' (ih (fun c hc => hnext c ?_) fun c hc => hprev c ?_)
    · rw [List.dropLast_cons_of_ne_nil (List.cons_ne_nil b l)]
      exact List.mem_cons_of_mem _ hc
    · exact List.mem_cons_of_mem _ hc

end Chain

section Ring

variable {m m' : Links A} {head : A} {xs as bs : List A}

/-- A ring depends on the pointers of its nodes. -/
theorem Ring.congr (h : Ring m head xs) (hnext : ∀ a ∈ head :: xs, m'.next a = m.next a)
    (hprev : ∀ a ∈ head :: xs, m'.prev a = m.prev a) : Ring m' head xs := by
  refine ⟨h.nodup, chain_congr (fun a ha => hnext a ?_) (fun b hb => hprev b ?_) h.linked⟩
  · rwa [List.dropLast_concat] at ha
  · rw [List.cons_append, List.tail_cons, List.mem_append, List.mem_singleton] at hb
    rw [List.mem_cons]
    exact hb.symm

/-- A node of a ring has a neighbour on each side. -/
theorem Ring.exists_succ (h : Ring m head xs) {a : A} (ha : a ∈ head :: xs) : ∃ b ∈ head :: xs, m.Adj a b := by
  have hlinked := h.linked
  obtain ⟨s, t, hst⟩ := List.append_of_mem ha
  obtain ⟨b, t', hb⟩ : ∃ b t', t ++ [head] = b :: t' := List.exists_cons_of_ne_nil (by simp)
  rw [hst, List.append_assoc, List.cons_append, hb] at hlinked
  obtain ⟨-, hadj, -⟩ := List.isChain_append_cons_cons.1 hlinked
  have hmem : b ∈ t ++ [head] := by simp [hb]
  refine ⟨b, ?_, hadj⟩
  rcases List.mem_append.1 hmem with hmem | hmem
  · rw [hst]
    simp [hmem]
  · simp [List.mem_singleton.1 hmem]

theorem Ring.exists_pred (h : Ring m head xs) {a : A} (ha : a ∈ head :: xs) : ∃ b ∈ head :: xs, m.Adj b a := by
  have hlinked := h.linked
  have ha' : a ∈ xs ++ [head] := by simpa [or_comm] using ha
  obtain ⟨s, t, hst⟩ := List.append_of_mem ha'
  obtain ⟨s', b, hb⟩ : ∃ s' b, head :: s = s' ++ [b] := ⟨_, _, (List.dropLast_concat_getLast (by simp)).symm⟩
  rw [List.cons_append, hst, ← List.cons_append, hb, List.append_assoc, List.singleton_append] at hlinked
  obtain ⟨-, hadj, -⟩ := List.isChain_append_cons_cons.1 hlinked
  have hmem : b ∈ head :: s := by simp [hb]
  refine ⟨b, ?_, hadj⟩
  rcases List.mem_cons.1 hmem with rfl | hmem
  · exact List.mem_cons_self ..
  · have hbx : b ∈ xs ++ [head] := by simp [hst, hmem]
    simpa [or_comm] using hbx

theorem Ring.next_mem (h : Ring m head xs) {a : A} (ha : a ∈ head :: xs) : m.next a ∈ head :: xs := by
  obtain ⟨b, hb, hadj⟩ := h.exists_succ ha
  rwa [hadj.1]

theorem Ring.prev_mem (h : Ring m head xs) {a : A} (ha : a ∈ head :: xs) : m.prev a ∈ head :: xs := by
  obtain ⟨b, hb, hadj⟩ := h.exists_pred ha
  rwa [hadj.2]

/-- The two pointers are inverse on the nodes of a ring. -/
theorem Ring.prev_next (h : Ring m head xs) {a : A} (ha : a ∈ head :: xs) : m.prev (m.next a) = a := by
  obtain ⟨b, -, hadj⟩ := h.exists_succ ha
  rw [hadj.1, hadj.2]

theorem Ring.next_prev (h : Ring m head xs) {a : A} (ha : a ∈ head :: xs) : m.next (m.prev a) = a := by
  obtain ⟨b, -, hadj⟩ := h.exists_pred ha
  rw [hadj.2, hadj.1]

/-! ### Between two neighbours -/

/-- The nodes of a ring around a place between two neighbours `p` and `n`. -/
structure Split (head : A) (as bs : List A) (p n : A) (l r : List A) : Prop where
  left : head :: as = l ++ [p]
  right : bs ++ [head] = n :: r
  nodup : (head :: (as ++ bs)).Nodup

theorem Split.exists (hnodup : (head :: (as ++ bs)).Nodup) : ∃ p n l r, Split head as bs p n l r := by
  obtain ⟨l, p, hl⟩ : ∃ l p, head :: as = l ++ [p] := ⟨_, _, (List.dropLast_concat_getLast (by simp)).symm⟩
  obtain ⟨n, r, hr⟩ : ∃ n r, bs ++ [head] = n :: r := List.exists_cons_of_ne_nil (by simp)
  exact ⟨p, n, l, r, hl, hr, hnodup⟩

variable {p n : A} {l r : List A}

theorem Split.append (h : Split head as bs p n l r) : head :: (as ++ bs) ++ [head] = l ++ p :: n :: r := by
  rw [← List.cons_append, h.left, List.append_assoc _ bs, h.right]
  simp

theorem Split.append_cons (h : Split head as bs p n l r) (x : A) :
    head :: (as ++ x :: bs) ++ [head] = l ++ p :: x :: n :: r := by
  rw [← List.cons_append, h.left, List.append_assoc _ (x :: bs), List.cons_append, h.right]
  simp

theorem Split.pred_mem (h : Split head as bs p n l r) : p ∈ head :: as := by
  rw [h.left]
  simp

theorem Split.succ_mem (h : Split head as bs p n l r) : n ∈ bs ++ [head] := by
  rw [h.right]
  simp

/-- A ring has its two neighbours at the place. -/
theorem Split.adj (h : Split head as bs p n l r) (hring : Ring m head (as ++ bs)) : m.Adj p n := by
  have hlinked := hring.linked
  rw [h.append] at hlinked
  exact (List.isChain_append_cons_cons.1 hlinked).2.1

/-- The parts of a ring on both sides of the place do not depend on `next` of `p` and `prev` of `n`. -/
theorem Split.sides (h : Split head as bs p n l r) (hl : (l ++ [p]).IsChain m.Adj) (hr : (n :: r).IsChain m.Adj)
    (hnext : ∀ a ∈ head :: (as ++ bs), a ≠ p → m'.next a = m.next a)
    (hprev : ∀ a ∈ head :: (as ++ bs), a ≠ n → m'.prev a = m.prev a) :
    (l ++ [p]).IsChain m'.Adj ∧ (n :: r).IsChain m'.Adj := by
  have hnodup := h.nodup
  rw [← List.cons_append, List.nodup_append] at hnodup
  obtain ⟨hleft, hbs, hdisj⟩ := hnodup
  have hleft' := hleft
  rw [h.left, List.nodup_append] at hleft'
  have hright : (n :: r).Nodup := by
    rw [← h.right, List.nodup_append]
    refine ⟨hbs, List.nodup_singleton _, fun a ha b hb => ?_⟩
    rw [List.mem_singleton.1 hb]
    exact (hdisj head (by simp) a ha).symm
  constructor
  · refine chain_congr (fun a ha => ?_) (fun b hb => ?_) hl
    · rw [List.dropLast_concat] at ha
      refine hnext a ?_ (hleft'.2.2 a ha p (by simp))
      rw [← List.cons_append, h.left]
      simp [ha]
    · rw [← h.left, List.tail_cons] at hb
      refine hprev b (by simp [hb]) ?_
      rintro rfl
      rcases List.mem_append.1 h.succ_mem with hn | hn
      · exact hdisj b (by simp [hb]) b hn rfl
      · rw [List.mem_singleton.1 hn] at hb
        exact (List.nodup_cons.1 hleft).1 hb
  · refine chain_congr (fun a ha => ?_) (fun b hb => ?_) hr
    · rw [← h.right, List.dropLast_concat] at ha
      refine hnext a (by simp [ha]) ?_
      rintro rfl
      exact hdisj a h.pred_mem a ha rfl
    · rw [List.tail_cons] at hb
      refine hprev b ?_ ?_
      · have hmem : b ∈ bs ++ [head] := by
          rw [h.right]
          exact List.mem_cons_of_mem _ hb
        rcases List.mem_append.1 hmem with hmem | hmem
        · simp [hmem]
        · simp [List.mem_singleton.1 hmem]
      · rintro rfl
        exact (List.nodup_cons.1 hright).1 hb

/-- The neighbours of a node of a ring. -/
theorem Ring.neighbours {old : A} (h : Ring m head (as ++ old :: bs)) (hs : Split head as bs p n l r) :
    m.prev old = p ∧ m.next old = n := by
  have hlinked := h.linked
  rw [hs.append_cons, List.isChain_append_cons_cons, List.isChain_cons_cons] at hlinked
  obtain ⟨-, hp, hn, -⟩ := hlinked
  exact ⟨hp.2, hn.1⟩

variable [DecidableEq A]

/-- A node that is not in the ring is put between `p` and `n`. -/
theorem Ring.insert {item : A} (h : Ring m head (as ++ bs)) (hs : Split head as bs p n l r)
    (hitem : item ∉ head :: (as ++ bs))
    (hnext : m'.next = Function.update (Function.update m.next p item) item n)
    (hprev : m'.prev = Function.update (Function.update m.prev n item) item p) : Ring m' head (as ++ item :: bs) := by
  have hp : p ≠ item := by
    rintro rfl
    have hmem := hs.pred_mem
    exact hitem (by rw [← List.cons_append]; exact List.mem_append_left _ hmem)
  have hn : n ≠ item := by
    rintro rfl
    rcases List.mem_append.1 hs.succ_mem with hmem | hmem
    · exact hitem (by simp [hmem])
    · exact hitem (by simp [List.mem_singleton.1 hmem])
  refine ⟨?_, ?_⟩
  · have hperm : (head :: (as ++ item :: bs)).Perm (item :: head :: (as ++ bs)) :=
      (List.perm_middle.cons head).trans (List.Perm.swap ..)
    rw [hperm.nodup_iff, List.nodup_cons]
    exact ⟨hitem, h.nodup⟩
  · have hlinked := h.linked
    rw [hs.append] at hlinked
    obtain ⟨hl, -, hr⟩ := List.isChain_append_cons_cons.1 hlinked
    obtain ⟨hl', hr'⟩ : (l ++ [p]).IsChain m'.Adj ∧ (n :: r).IsChain m'.Adj := hs.sides hl hr
      (fun a ha hap => by
        have hai : a ≠ item := ne_of_mem_of_not_mem ha hitem
        rw [hnext, Function.update_of_ne hai, Function.update_of_ne hap])
      (fun a ha han => by
        have hai : a ≠ item := ne_of_mem_of_not_mem ha hitem
        rw [hprev, Function.update_of_ne hai, Function.update_of_ne han])
    rw [hs.append_cons, List.isChain_append_cons_cons, List.isChain_cons_cons]
    refine ⟨hl', ⟨?_, ?_⟩, ⟨?_, ?_⟩, hr'⟩
    · rw [hnext, Function.update_of_ne hp, Function.update_self]
    · rw [hprev, Function.update_self]
    · rw [hnext, Function.update_self]
    · rw [hprev, Function.update_of_ne hn, Function.update_self]

/-- A node of the ring is taken out. -/
theorem Ring.remove {old : A} (h : Ring m head (as ++ old :: bs)) (hs : Split head as bs p n l r)
    (hnext : m'.next = Function.update m.next p n) (hprev : m'.prev = Function.update m.prev n p) :
    Ring m' head (as ++ bs) := by
  have hlinked := h.linked
  rw [hs.append_cons, List.isChain_append_cons_cons, List.isChain_cons_cons] at hlinked
  obtain ⟨hl, -, -, hr⟩ := hlinked
  obtain ⟨hl', hr'⟩ : (l ++ [p]).IsChain m'.Adj ∧ (n :: r).IsChain m'.Adj := hs.sides hl hr
    (fun a _ hap => by rw [hnext, Function.update_of_ne hap])
    (fun a _ han => by rw [hprev, Function.update_of_ne han])
  refine ⟨hs.nodup, ?_⟩
  rw [hs.append, List.isChain_append_cons_cons]
  refine ⟨hl', ⟨?_, ?_⟩, hr'⟩
  · rw [hnext, Function.update_self]
  · rw [hprev, Function.update_self]

/-! ### Walks -/

private theorem forEachFrom_eq {ys : List A} (hnodup : (head :: ys).Nodup)
    (h : (ys ++ [head]).IsChain m.Adj) {pos : A} (hpos : (ys ++ [head]).head? = some pos) {fuel : Nat}
    (hfuel : ys.length < fuel) : m.forEachFrom head fuel pos = some ys := by
  induction ys generalizing pos fuel with
  | nil =>
    obtain ⟨fuel, rfl⟩ : ∃ k, fuel = k + 1 := ⟨fuel - 1, by simp at hfuel; omega⟩
    obtain rfl : head = pos := by simpa using hpos
    rw [forEachFrom, if_pos rfl]
  | cons y ys ih =>
    rw [List.length_cons] at hfuel
    obtain ⟨fuel, rfl⟩ : ∃ k, fuel = k + 1 := ⟨fuel - 1, by omega⟩
    obtain rfl : y = pos := by simpa using hpos
    have hy : y ≠ head := by
      rintro rfl
      simp at hnodup
    have hnodup' : (head :: ys).Nodup := hnodup.sublist ((List.sublist_cons_self y ys).cons_cons head)
    have hrest := List.isChain_cons.1 h
    have hnext : (ys ++ [head]).head? = some (m.next y) := by
      obtain ⟨z, zs, hz⟩ : ∃ z zs, ys ++ [head] = z :: zs := List.exists_cons_of_ne_nil (by simp)
      have hadj := hrest.1 z (by simp [hz])
      rw [hz, List.head?_cons, hadj.1]
    rw [forEachFrom, if_neg hy, ih hnodup' hrest.2 hnext (by omega), Option.map_some]

/-- A walk from the head visits the sequence of the ring and comes back. -/
theorem Ring.forEach_eq (h : Ring m head xs) {fuel : Nat} (hfuel : xs.length < fuel) :
    m.forEach head fuel = some xs := by
  have hlinked : (xs ++ [head]).IsChain m.Adj ∧ (xs ++ [head]).head? = some (m.next head) := by
    obtain ⟨hadj, hrest⟩ := List.isChain_cons.1 h.linked
    obtain ⟨z, zs, hz⟩ : ∃ z zs, xs ++ [head] = z :: zs := List.exists_cons_of_ne_nil (by simp)
    have hz' := hadj z (by simp [hz])
    exact ⟨hrest, by rw [hz, List.head?_cons, hz'.1]⟩
  exact forEachFrom_eq h.nodup hlinked.1 hlinked.2 hfuel

private theorem next_of_forEachFrom {ys : List A} {fuel : Nat} {pos : A} (h : m.forEachFrom head fuel pos = some ys) :
    (ys ++ [head]).head? = some pos ∧ (ys ++ [head]).IsChain fun a b => m.next a = b := by
  induction fuel generalizing ys pos with
  | zero => cases h
  | succ fuel ih =>
    rw [forEachFrom] at h
    split at h
    · rename_i hpos
      cases h
      exact ⟨by rw [hpos]; rfl, List.isChain_singleton _⟩
    · obtain ⟨zs, hzs, rfl⟩ := Option.map_eq_some_iff.1 h
      obtain ⟨hhead, hchain⟩ := ih hzs
      refine ⟨rfl, ?_⟩
      rw [List.cons_append, List.isChain_cons]
      refine ⟨fun b hb => ?_, hchain⟩
      rw [hhead] at hb
      exact Option.some.inj hb

/-- What a user of the list sees of a ring: the two pointers are inverse on its nodes, and the walk from the head visits
the sequence, each node once, and comes back. -/
structure WellFormed (m : Links A) (head : A) (xs : List A) : Prop where
  nodup : (head :: xs).Nodup
  prev_next (a : A) (ha : a ∈ head :: xs) : m.prev (m.next a) = a
  next_prev (a : A) (ha : a ∈ head :: xs) : m.next (m.prev a) = a
  forEach (fuel : Nat) (hfuel : xs.length < fuel) : m.forEach head fuel = some xs

theorem wellFormed_iff_ring : WellFormed m head xs ↔ Ring m head xs := by
  constructor
  · intro h
    -- the walk gives the chain of `next`, and `prev` is its inverse
    have hwalk := h.forEach (xs.length + 1) (Nat.lt_succ_self _)
    obtain ⟨hhead, hchain⟩ := next_of_forEachFrom hwalk
    refine ⟨h.nodup, ?_⟩
    have hnext : (head :: (xs ++ [head])).IsChain fun a b => m.next a = b := by
      rw [List.isChain_cons]
      refine ⟨fun b hb => ?_, hchain⟩
      rw [hhead] at hb
      exact Option.some.inj hb
    refine hnext.imp_of_mem_imp fun a b ha _ hab => ⟨hab, ?_⟩
    rw [← hab]
    exact h.prev_next a (by simpa [or_comm] using ha)
  · intro h
    exact ⟨h.nodup, fun a => h.prev_next, fun a => h.next_prev, fun fuel => h.forEach_eq⟩

end Ring

end Links
