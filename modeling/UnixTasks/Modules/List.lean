import UnixTasks.Lib.Ring
import UnixTasks.Lib.Run

/-!
# The intrusive list: field.h

The four operations on a heap of nodes, and what they are for: a list of rings with no node in common, in which a ring
is a head and a sequence.

* (`Rings.step`) the operations on sequences, where they may be used;
* (`represents_step`) one operation on the heap does to every ring what `Rings.step` says;
* (`rings_wellFormed`) after any sequence of operations.

list/main.c has the same text.
-/

namespace UnixTasks.Modules

open ActionSystem Links

variable {A : Type*}

section Heap

variable [DecidableEq A]

def setNext (m : Links A) (a b : A) : Links A := { m with next := Function.update m.next a b }

def setPrev (m : Links A) (a b : A) : Links A := { m with prev := Function.update m.prev a b }

/-- `__list_add`. -/
def listAddBetween (m : Links A) (item prev next : A) : Links A :=
  let m := setNext m prev item
  let m := setPrev m next item
  let m := setPrev m item prev
  setNext m item next

def listInit (m : Links A) (list : A) : Links A :=
  let m := setPrev m list list
  setNext m list list

def listAdd (m : Links A) (new head : A) : Links A := listAddBetween m new head (m.next head)

def listAddBack (m : Links A) (new head : A) : Links A := listAddBetween m new (m.prev head) head

def listDel (m : Links A) (old : A) : Links A :=
  let m := setNext m (m.prev old) (m.next old)
  setPrev m (m.next old) (m.prev old)

theorem next_listAddBetween (m : Links A) (item prev next : A) :
    (listAddBetween m item prev next).next = Function.update (Function.update m.next prev item) item next := rfl

theorem prev_listAddBetween (m : Links A) (item prev next : A) :
    (listAddBetween m item prev next).prev = Function.update (Function.update m.prev next item) item prev := rfl

/-- A node is not its own predecessor, so its `next` is still there at the second write. -/
theorem listDel_eq {m : Links A} {old : A} (h : m.prev old ≠ old) :
    (listDel m old).next = Function.update m.next (m.prev old) (m.next old) ∧
      (listDel m old).prev = Function.update m.prev (m.next old) (m.prev old) := by
  refine ⟨rfl, ?_⟩
  show Function.update m.prev (Function.update m.next (m.prev old) (m.next old) old) (m.prev old) = _
  rw [Function.update_of_ne h.symm]

/-! ### One ring -/

variable {m : Links A} {head item : A} {xs : List A}

theorem ring_listInit (m : Links A) (list : A) : Ring (listInit m list) list [] := by
  refine ⟨List.nodup_singleton _, ?_⟩
  rw [List.singleton_append, List.isChain_pair]
  simp [Adj, listInit, setNext, setPrev]

private theorem ring_listInit_other {list : A} (h : Ring m head xs) (hlist : list ∉ head :: xs) :
    Ring (listInit m list) head xs := by
  refine h.congr (fun a ha => ?_) (fun a ha => ?_)
  · exact Function.update_of_ne (ne_of_mem_of_not_mem ha hlist) _ _
  · exact Function.update_of_ne (ne_of_mem_of_not_mem ha hlist) _ _

theorem ring_listAdd (h : Ring m head xs) (hitem : item ∉ head :: xs) :
    Ring (listAdd m item head) head (item :: xs) := by
  obtain ⟨p, n, l, r, hs⟩ : ∃ p n l r, Split head [] xs p n l r := Split.exists h.nodup
  have hp : p = head := List.mem_singleton.1 hs.pred_mem
  have hadj := hs.adj h
  rw [hp] at hadj hs
  refine Ring.insert h hs hitem ?_ ?_
  · rw [listAdd, next_listAddBetween, hadj.1]
  · rw [listAdd, prev_listAddBetween, hadj.1]

theorem ring_listAddBack (h : Ring m head xs) (hitem : item ∉ head :: xs) :
    Ring (listAddBack m item head) head (xs ++ [item]) := by
  have h' : Ring m head (xs ++ []) := by rwa [List.append_nil]
  obtain ⟨p, n, l, r, hs⟩ := Split.exists h'.nodup
  have hn : n = head := List.mem_singleton.1 hs.succ_mem
  have hadj := hs.adj h'
  rw [hn] at hadj hs
  refine h'.insert hs (by rwa [List.append_nil]) ?_ ?_
  · rw [listAddBack, next_listAddBetween, hadj.2]
  · rw [listAddBack, prev_listAddBetween, hadj.2]

private theorem ring_listAddBetween_other {prev next : A} (h : Ring m head xs) (hitem : item ∉ head :: xs)
    (hprev : prev ∉ head :: xs) (hnext : next ∉ head :: xs) : Ring (listAddBetween m item prev next) head xs := by
  refine h.congr (fun a ha => ?_) (fun a ha => ?_)
  · rw [next_listAddBetween, Function.update_of_ne (ne_of_mem_of_not_mem ha hitem),
      Function.update_of_ne (ne_of_mem_of_not_mem ha hprev)]
  · rw [prev_listAddBetween, Function.update_of_ne (ne_of_mem_of_not_mem ha hitem),
      Function.update_of_ne (ne_of_mem_of_not_mem ha hnext)]

omit [DecidableEq A] in
/-- A node that is not the head is not its own neighbour. -/
private theorem prev_ne {as bs : List A} {old : A} (h : Ring m head (as ++ old :: bs)) : m.prev old ≠ old := by
  intro heq
  have hnodup := h.nodup
  rw [← List.cons_append, List.nodup_append] at hnodup
  obtain ⟨l, p, hl⟩ : ∃ l p, head :: as = l ++ [p] := ⟨_, _, (List.dropLast_concat_getLast (by simp)).symm⟩
  have hlinked := h.linked
  rw [← List.cons_append, hl, List.append_assoc, List.append_assoc] at hlinked
  obtain ⟨-, hadj, -⟩ := List.isChain_append_cons_cons.1 hlinked
  have hp : p ∈ head :: as := by simp [hl]
  exact hnodup.2.2 p hp old (List.mem_cons_self ..) (by rw [← hadj.2, heq])

private theorem ring_listDel {as bs : List A} {old : A} (h : Ring m head (as ++ old :: bs)) :
    Ring (listDel m old) head (as ++ bs) := by
  have hnodup : (head :: (as ++ bs)).Nodup :=
    h.nodup.sublist (((List.sublist_cons_self old bs).append_left as).cons_cons head)
  obtain ⟨p, n, l, r, hs⟩ := Split.exists hnodup
  obtain ⟨hp, hn⟩ := h.neighbours hs
  obtain ⟨hnext, hprev⟩ := listDel_eq (prev_ne h)
  rw [hp, hn] at hnext hprev
  exact h.remove hs hnext hprev

private theorem ring_listDel_other {old : A} (h : Ring m head xs) (hne : m.prev old ≠ old)
    (hprev : m.prev old ∉ head :: xs) (hnext : m.next old ∉ head :: xs) : Ring (listDel m old) head xs := by
  obtain ⟨hnexts, hprevs⟩ := listDel_eq hne
  refine h.congr (fun a ha => ?_) (fun a ha => ?_)
  · rw [hnexts, Function.update_of_ne (ne_of_mem_of_not_mem ha hprev)]
  · rw [hprevs, Function.update_of_ne (ne_of_mem_of_not_mem ha hnext)]

end Heap

/-! ### All rings -/

/-- The nodes of some rings, each a head and a sequence. -/
def nodes (rings : List (A × List A)) : List A := rings.flatMap fun r => r.1 :: r.2

/-- Rings without a common node. -/
structure Rings (A : Type*) where
  rings : List (A × List A)
  nodup : (nodes rings).Nodup
  deriving DecidableEq

/-- The ring with the given head has another sequence. -/
def updateAt [DecidableEq A] (head : A) (f : List A → List A) (rings : List (A × List A)) : List (A × List A) :=
  rings.map fun r => if r.1 = head then (r.1, f r.2) else r

section Nodes

variable {rings : List (A × List A)} {r s : A × List A}

private theorem mem_nodes (hr : r ∈ rings) {a : A} (ha : a ∈ r.1 :: r.2) :
    a ∈ nodes rings := List.mem_flatMap.2 ⟨r, hr, ha⟩

/-- A node is in one ring only. -/
private theorem disjoint_of_ne (h : (nodes rings).Nodup) (hr : r ∈ rings) (hs : s ∈ rings) (hne : r ≠ s) {a : A}
    (ha : a ∈ r.1 :: r.2) : a ∉ s.1 :: s.2 := by
  obtain ⟨-, hdisj⟩ := List.nodup_flatMap.1 h
  have hsymm : Std.Symm (Function.onFun List.Disjoint fun r : A × List A => r.1 :: r.2) :=
    ⟨fun x y hxy b hb hb' => hxy hb' hb⟩
  have hrs : List.Disjoint (r.1 :: r.2) (s.1 :: s.2) := hdisj.forall hr hs hne
  exact fun hs' => hrs ha hs'

variable [DecidableEq A] {head new : A} {f : List A → List A}

private theorem updateAt_of_notMem (h : head ∉ nodes rings) : updateAt head f rings = rings := by
  have hid : ∀ r ∈ rings, (if r.1 = head then (r.1, f r.2) else r) = r := by
    intro r hr
    refine if_neg ?_
    rintro rfl
    exact h (mem_nodes hr (List.mem_cons_self ..))
  rw [updateAt, List.map_congr_left hid, List.map_id']

/-- A ring that grows by one node makes the nodes of all rings grow by it. -/
private theorem nodes_updateAt (hf : ∀ xs, (f xs).Perm (new :: xs)) (hhead : head ∈ rings.map Prod.fst)
    (h : (nodes rings).Nodup) : (nodes (updateAt head f rings)).Perm (new :: nodes rings) := by
  induction rings with
  | nil => simp at hhead
  | cons r rings ih =>
    have hnodes : nodes (r :: rings) = (r.1 :: r.2) ++ nodes rings := rfl
    rw [hnodes, List.nodup_append] at h
    obtain ⟨-, hrest, hdisj⟩ := h
    by_cases hr : r.1 = head
    · have hrest' : head ∉ nodes rings := fun hmem => hdisj head (by simp [hr]) head hmem rfl
      have hupdate : updateAt head f (r :: rings) = (r.1, f r.2) :: updateAt head f rings := by
        simp [updateAt, hr]
      rw [hupdate, updateAt_of_notMem hrest', hnodes]
      have hperm : (r.1 :: f r.2).Perm (new :: (r.1 :: r.2)) := ((hf r.2).cons r.1).trans (List.Perm.swap ..)
      exact hperm.append_right (nodes rings)
    · have hhead' : head ∈ rings.map Prod.fst := by
        rw [List.map_cons, List.mem_cons] at hhead
        exact hhead.resolve_left fun heq => hr heq.symm
      have hupdate : updateAt head f (r :: rings) = r :: updateAt head f rings := by
        simp [updateAt, hr]
      rw [hupdate, hnodes]
      exact ((ih hhead' hrest).append_left (r.1 :: r.2)).trans List.perm_middle

private theorem nodup_updateAt (hf : ∀ xs, (f xs).Perm (new :: xs)) (hhead : head ∈ rings.map Prod.fst)
    (h : (nodes rings).Nodup) (hnew : new ∉ nodes rings) : (nodes (updateAt head f rings)).Nodup := by
  rw [(nodes_updateAt hf hhead h).nodup_iff, List.nodup_cons]
  exact ⟨hnew, h⟩

/-- The rings without the node `old`. -/
def eraseAll (old : A) (rings : List (A × List A)) : List (A × List A) := rings.map fun r => (r.1, r.2.erase old)

private theorem nodup_eraseAll (old : A) (h : (nodes rings).Nodup) : (nodes (eraseAll old rings)).Nodup := by
  refine h.sublist ?_
  induction rings with
  | nil => exact List.Sublist.refl _
  | cons r rings ih =>
    have hrest : (nodes rings).Nodup := (List.nodup_append.1 (show ((r.1 :: r.2) ++ nodes rings).Nodup from h)).2.1
    exact (List.erase_sublist.cons_cons r.1).append (ih hrest)

end Nodes

/-! ### Runs -/

/-- A call of one of the operations. -/
inductive Op (A : Type*) where
  | init (list : A)
  | add (new head : A)
  | addBack (new head : A)
  | del (old : A)
  deriving DecidableEq, Repr

variable [DecidableEq A]

/-- The call on the heap. -/
def exec (m : Links A) : Op A → Links A
  | .init list => listInit m list
  | .add new head => listAdd m new head
  | .addBack new head => listAddBack m new head
  | .del old => listDel m old

/-- The call on the sequences: a node that is in no ring becomes the head of an empty one, or the first or the last of
the ring with the given head; a node that is not a head is taken out of its ring. -/
def Rings.step (s : Rings A) : Op A → Option (Rings A)
  | .init list =>
    if h : list ∉ nodes s.rings then some ⟨(list, []) :: s.rings, List.nodup_cons.2 ⟨h, s.nodup⟩⟩ else none
  | .add new head =>
    if h : new ∉ nodes s.rings ∧ head ∈ s.rings.map Prod.fst then
      some ⟨updateAt head (new :: ·) s.rings, nodup_updateAt (fun _ => List.Perm.refl _) h.2 s.nodup h.1⟩
    else none
  | .addBack new head =>
    if h : new ∉ nodes s.rings ∧ head ∈ s.rings.map Prod.fst then
      some ⟨updateAt head (· ++ [new]) s.rings,
        nodup_updateAt (fun xs => List.perm_append_singleton new xs) h.2 s.nodup h.1⟩
    else none
  | .del old =>
    if ∃ r ∈ s.rings, old ∈ r.2 then some ⟨eraseAll old s.rings, nodup_eraseAll old s.nodup⟩ else none

/-- Every ring is in the heap. -/
def Represents (m : Links A) (s : Rings A) : Prop := ∀ r ∈ s.rings, Ring m r.1 r.2

section Step

variable {m : Links A} {s s' : Rings A}

/-- A node is put between two neighbours in one ring, and the others are as they were. -/
private theorem represents_insert {f : List A → List A} {r : A × List A} {new p n : A} (h : Represents m s)
    (hr : r ∈ s.rings) (hp : p ∈ r.1 :: r.2) (hn : n ∈ r.1 :: r.2) (hnew : new ∉ nodes s.rings)
    (hring : Ring (listAddBetween m new p n) r.1 (f r.2)) :
    ∀ t ∈ updateAt r.1 f s.rings, Ring (listAddBetween m new p n) t.1 t.2 := by
  intro t ht
  obtain ⟨q, hq, rfl⟩ := List.mem_map.1 ht
  by_cases heq : q = r
  · simpa [heq] using hring
  · have hdisj := fun a => disjoint_of_ne s.nodup hr hq (Ne.symm heq) (a := a)
    have hhead : q.1 ≠ r.1 := fun hhead => hdisj r.1 (List.mem_cons_self ..) (by simp [← hhead])
    rw [if_neg hhead]
    exact ring_listAddBetween_other (h q hq) (fun hmem => hnew (mem_nodes hq hmem)) (hdisj p hp) (hdisj n hn)

theorem represents_step {op : Op A} (h : Represents m s) (hstep : s.step op = some s') : Represents (exec m op) s' := by
  cases op with
  | init list =>
    simp only [Rings.step] at hstep
    split at hstep
    · rename_i hlist
      cases hstep
      intro r hr
      rcases List.mem_cons.1 hr with rfl | hr
      · exact ring_listInit m list
      · exact ring_listInit_other (h r hr) fun hmem => hlist (mem_nodes hr hmem)
    · cases hstep
  | add new head =>
    simp only [Rings.step] at hstep
    split at hstep
    · rename_i hnew
      cases hstep
      obtain ⟨r, hr, rfl⟩ := List.mem_map.1 hnew.2
      have hring := ring_listAdd (h r hr) fun hmem => hnew.1 (mem_nodes hr hmem)
      exact represents_insert h hr (List.mem_cons_self ..) ((h r hr).next_mem (List.mem_cons_self ..)) hnew.1 hring
    · cases hstep
  | addBack new head =>
    simp only [Rings.step] at hstep
    split at hstep
    · rename_i hnew
      cases hstep
      obtain ⟨r, hr, rfl⟩ := List.mem_map.1 hnew.2
      have hring := ring_listAddBack (h r hr) fun hmem => hnew.1 (mem_nodes hr hmem)
      exact represents_insert (f := (· ++ [new])) h hr ((h r hr).prev_mem (List.mem_cons_self ..))
        (List.mem_cons_self ..) hnew.1 hring
    · cases hstep
  | del old =>
    simp only [Rings.step] at hstep
    split at hstep
    · rename_i hex
      cases hstep
      obtain ⟨r, hr, hold⟩ := hex
      have hmem : old ∈ r.1 :: r.2 := List.mem_cons_of_mem _ hold
      obtain ⟨as, bs, -, hsplit, herase⟩ := List.exists_erase_eq hold
      have hring := h r hr
      rw [hsplit] at hring
      intro t ht
      obtain ⟨q, hq, rfl⟩ := List.mem_map.1 ht
      -- `old` is in the ring `r`, and in no other
      by_cases heq : q = r
      · rw [heq, herase]
        exact ring_listDel hring
      · have hdisj := fun a => disjoint_of_ne s.nodup hr hq (Ne.symm heq) (a := a)
        have hold' : old ∉ q.2 := fun hq' => hdisj old hmem (List.mem_cons_of_mem _ hq')
        rw [List.erase_of_not_mem hold']
        exact ring_listDel_other (h q hq) (prev_ne hring) (hdisj _ ((h r hr).prev_mem hmem))
          (hdisj _ ((h r hr).next_mem hmem))
    · cases hstep

private theorem represents_run {ops : List (Op A)} (h : Represents m s) (hrun : run Rings.step s ops = some s') :
    Represents (ops.foldl exec m) s' := by
  induction ops generalizing m s with
  | nil =>
    cases hrun
    exact h
  | cons op ops ih =>
    obtain ⟨t, ht, hrun⟩ := run_cons_eq_some.1 hrun
    exact ih (represents_step h ht) hrun

end Step

/-- In a heap with any rings, after any sequence of calls where they may be made: every ring is well formed, and its
sequence is the one that the calls say. -/
theorem rings_wellFormed {m : Links A} {s s' : Rings A} {ops : List (Op A)}
    (h : ∀ r ∈ s.rings, WellFormed m r.1 r.2) (hrun : run Rings.step s ops = some s') :
    ∀ r ∈ s'.rings, WellFormed (ops.foldl exec m) r.1 r.2 := by
  have hrep : Represents m s := fun r hr => wellFormed_iff_ring.1 (h r hr)
  intro r hr
  exact wellFormed_iff_ring.2 (represents_run hrep hrun r hr)

/-- A node that is taken out of one ring is put into another with its old pointers. -/
theorem rings_wellFormed_moved : ∃ s' : Rings Nat,
    run Rings.step ⟨[], List.nodup_nil⟩ [.init 0, .init 1, .add 2 0, .addBack 3 0, .add 4 0, .del 2, .addBack 2 1] =
      some s' ∧ s'.rings = [(1, [2]), (0, [4, 3])] ∧
    ∀ r ∈ s'.rings, WellFormed ([.init 0, .init 1, .add 2 0, .addBack 3 0, .add 4 0, .del 2, .addBack 2 1].foldl exec
      (⟨id, id⟩ : Links Nat)) r.1 r.2 := by
  refine ⟨⟨[(1, [2]), (0, [4, 3])], by decide⟩, by decide, rfl, ?_⟩
  exact rings_wellFormed (s := ⟨[], List.nodup_nil⟩) (by simp) (by decide)

end UnixTasks.Modules
