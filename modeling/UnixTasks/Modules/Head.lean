import UnixTasks.Modules.List

/-!
# list_del on the head

list/main.c takes the head itself out of its ring, and adds a node to it afterwards.  The nodes of the ring then lead
past the head, in both directions, while the head still points to the first and to the last of them.

* (`Torn`) how the pointers differ from those of a ring;
* (`torn_listAdd`, `torn_listAddBack`) each of the two calls mends one direction;
* (`wellFormed_iff_mended`) the heap after any additions;
* (`main_not_wellFormed`) `main` of list/main.c.
-/

namespace UnixTasks.Modules

open Links

variable {A : Type*}

/-- A call that adds a node to the ring. -/
inductive Addition (A : Type*) where
  | front (new : A)
  | back (new : A)
  deriving DecidableEq

def Addition.new : Addition A → A
  | .front new => new
  | .back new => new

def Addition.op (head : A) : Addition A → Op A
  | .front new => .add new head
  | .back new => .addBack new head

/-- The nodes in front and behind. -/
def grow : List A × List A → Addition A → List A × List A
  | (fs, bs), .front new => (new :: fs, bs)
  | (fs, bs), .back new => (fs, bs ++ [new])

/-! ### The ends of a ring -/

section Ends

variable {m : Links A} {head x : A} {xs : List A}

private theorem next_head (h : Ring m head (x :: xs)) : m.next head = x := by
  have hlinked := h.linked
  rw [List.cons_append, List.cons_append, List.isChain_cons_cons] at hlinked
  exact hlinked.1.1

private theorem prev_head (h : Ring m head (xs ++ [x])) : m.prev head = x := by
  have hlinked := h.linked
  rw [← List.cons_append, List.append_assoc, List.singleton_append] at hlinked
  exact (List.isChain_append_cons_cons.1 hlinked).2.1.2

end Ends

/-! ### The ring without its head -/

/-- The pointers are those of the ring with `fs` in front of `xs` and `bs` behind; but as long as nothing is behind, the
last node of `xs` leads to the first one, and as long as nothing is in front, the first one leads back to the last. -/
structure Torn [DecidableEq A] (head first last : A) (xs fs bs : List A) (r m : Links A) : Prop where
  ring : Ring r head (fs ++ xs ++ bs)
  next : m.next = if bs = [] then Function.update r.next last first else r.next
  prev : m.prev = if fs = [] then Function.update r.prev first last else r.prev

section Torn

variable [DecidableEq A] {m r : Links A} {head first last item : A} {xs fs bs : List A}

private theorem torn_listDel (h : Ring m head xs) (hfirst : ∃ t, xs = first :: t) (hlast : ∃ t, xs = t ++ [last]) :
    Torn head first last xs [] [] m (listDel m head) := by
  have hnext : m.next head = first := by
    obtain ⟨t, rfl⟩ := hfirst
    exact next_head h
  have hprev : m.prev head = last := by
    obtain ⟨t, rfl⟩ := hlast
    exact prev_head h
  have hne : m.prev head ≠ head := by
    obtain ⟨t, rfl⟩ := hlast
    rw [hprev]
    rintro rfl
    exact (List.nodup_cons.1 h.nodup).1 (by simp)
  obtain ⟨hnext', hprev'⟩ := listDel_eq hne
  rw [hnext, hprev] at hnext' hprev'
  exact ⟨by rwa [List.nil_append, List.append_nil], by rw [hnext', if_pos rfl], by rw [hprev', if_pos rfl]⟩

private theorem Torn.ne_head (h : Torn head first last xs fs bs r m) {a : A} (ha : a ∈ xs) : a ≠ head := by
  rintro rfl
  exact (List.nodup_cons.1 h.ring.nodup).1 (by simp [ha])

/-- The nodes after the head are those of the ring, in either case. -/
theorem Torn.next_eq (h : Torn head first last xs fs bs r m) (hlast : last ∈ xs) : m.next head = r.next head := by
  rw [h.next]
  split
  · exact Function.update_of_ne (h.ne_head hlast).symm ..
  · rfl

private theorem Torn.prev_eq (h : Torn head first last xs fs bs r m) (hfirst : first ∈ xs) :
    m.prev head = r.prev head := by
  rw [h.prev]
  split
  · exact Function.update_of_ne (h.ne_head hfirst).symm ..
  · rfl

/-- `list_add` gives the first node its predecessor. -/
theorem torn_listAdd (h : Torn head first last xs fs bs r m) (hfirst : ∃ t, xs = first :: t) (hlast : last ∈ xs)
    (hitem : item ∉ head :: (fs ++ xs ++ bs)) :
    Torn head first last xs (item :: fs) bs (listAdd r item head) (listAdd m item head) := by
  have hlast' : last ≠ head := h.ne_head hlast
  have hne : last ≠ item := by
    rintro rfl
    exact hitem (by simp [hlast])
  refine ⟨ring_listAdd h.ring hitem, ?_, ?_⟩
  · rw [listAdd, listAdd, next_listAddBetween, next_listAddBetween, h.next_eq hlast, h.next]
    split
    · rw [Function.update_comm hlast', Function.update_comm hne]
    · rfl
  · rw [listAdd, listAdd, prev_listAddBetween, prev_listAddBetween, h.next_eq hlast, h.prev,
      if_neg (List.cons_ne_nil item fs)]
    split
    · rename_i hfs
      have hnext : r.next head = first := by
        obtain ⟨t, rfl⟩ := hfirst
        have hring := h.ring
        rw [hfs, List.nil_append, List.cons_append] at hring
        exact next_head hring
      rw [hnext, Function.update_idem]
    · rfl

/-- `list_add_back` gives the last node its successor. -/
theorem torn_listAddBack (h : Torn head first last xs fs bs r m) (hfirst : first ∈ xs) (hlast : ∃ t, xs = t ++ [last])
    (hitem : item ∉ head :: (fs ++ xs ++ bs)) :
    Torn head first last xs fs (bs ++ [item]) (listAddBack r item head) (listAddBack m item head) := by
  have hfirst' : first ≠ head := h.ne_head hfirst
  have hne : first ≠ item := by
    rintro rfl
    exact hitem (by simp [hfirst])
  refine ⟨?_, ?_, ?_⟩
  · rw [← List.append_assoc]
    exact ring_listAddBack h.ring hitem
  · rw [listAddBack, listAddBack, next_listAddBetween, next_listAddBetween, h.prev_eq hfirst, h.next,
      if_neg (List.append_ne_nil_of_right_ne_nil bs (List.cons_ne_nil item []))]
    split
    · rename_i hbs
      have hprev : r.prev head = last := by
        obtain ⟨t, rfl⟩ := hlast
        have hring := h.ring
        rw [hbs, List.append_nil, ← List.append_assoc] at hring
        exact prev_head hring
      rw [hprev, Function.update_idem]
    · rfl
  · rw [listAddBack, listAddBack, prev_listAddBetween, prev_listAddBetween, h.prev_eq hfirst, h.prev]
    split
    · rw [Function.update_comm hfirst', Function.update_comm hne]
    · rfl

/-- With a node in front and a node behind nothing is torn. -/
theorem Torn.wellFormed (h : Torn head first last xs fs bs r m) (hfs : fs ≠ []) (hbs : bs ≠ []) :
    WellFormed m head (fs ++ xs ++ bs) := by
  have hm : m = r := by
    have hnext := h.next
    have hprev := h.prev
    rw [if_neg hbs] at hnext
    rw [if_neg hfs] at hprev
    cases m
    cases r
    exact congrArg₂ Links.mk hnext hprev
  rw [hm]
  exact wellFormed_iff_ring.2 h.ring

private theorem torn_exec (h : Torn head first last xs fs bs r m) (hfirst : ∃ t, xs = first :: t)
    (hlast : ∃ t, xs = t ++ [last]) {a : Addition A} (ha : a.new ∉ head :: (fs ++ xs ++ bs)) :
    ∃ r', Torn head first last xs (grow (fs, bs) a).1 (grow (fs, bs) a).2 r' (exec m (a.op head)) := by
  have hfirst' : first ∈ xs := by
    obtain ⟨t, rfl⟩ := hfirst
    exact List.mem_cons_self
  have hlast' : last ∈ xs := by
    obtain ⟨t, rfl⟩ := hlast
    exact List.mem_append_right _ List.mem_cons_self
  cases a with
  | front new => exact ⟨_, torn_listAdd h hfirst hlast' ha⟩
  | back new => exact ⟨_, torn_listAddBack h hfirst' hlast ha⟩

omit [DecidableEq A] in
/-- The nodes after one addition, and those that are still to be added. -/
private theorem grow_perm (a : Addition A) (ns : List A) :
    (head :: ((grow (fs, bs) a).1 ++ xs ++ (grow (fs, bs) a).2) ++ ns).Perm
      (head :: (fs ++ xs ++ bs) ++ a.new :: ns) := by
  cases a with
  | front new =>
    refine List.Perm.cons head ?_
    exact (@List.perm_middle A new (fs ++ xs ++ bs) ns).symm
  | back new =>
    simp [grow, Addition.new]

private theorem torn_run (h : Torn head first last xs fs bs r m) (hfirst : ∃ t, xs = first :: t)
    (hlast : ∃ t, xs = t ++ [last]) {adds : List (Addition A)}
    (hnodup : (head :: (fs ++ xs ++ bs) ++ adds.map Addition.new).Nodup) :
    ∃ r', Torn head first last xs (adds.foldl grow (fs, bs)).1 (adds.foldl grow (fs, bs)).2 r'
      ((adds.map (Addition.op head)).foldl exec m) := by
  induction adds generalizing fs bs r m with
  | nil => exact ⟨r, h⟩
  | cons a adds ih =>
    rw [List.map_cons] at hnodup
    have ha : a.new ∉ head :: (fs ++ xs ++ bs) := fun hmem =>
      (List.nodup_append.1 hnodup).2.2 a.new hmem a.new List.mem_cons_self rfl
    obtain ⟨r', h'⟩ := torn_exec h hfirst hlast ha
    exact ih h' ((grow_perm a _).nodup_iff.2 hnodup)

/-- The pointers are those of a ring again when there is a node in front and a node behind, and only then. -/
private theorem Torn.wellFormed_iff (h : Torn head first last xs fs bs r m) (hfirst : ∃ t, xs = first :: t)
    (hlast : ∃ t, xs = t ++ [last]) :
    (∃ ys, WellFormed m head ys) ↔ fs ≠ [] ∧ bs ≠ [] := by
  have hfirst' : first ∈ xs := by
    obtain ⟨t, rfl⟩ := hfirst
    exact List.mem_cons_self
  have hlast' : last ∈ xs := by
    obtain ⟨t, rfl⟩ := hlast
    exact List.mem_append_right _ List.mem_cons_self
  constructor
  · rintro ⟨ys, hys⟩
    constructor
    · rintro hfs
      -- the predecessor of the first node is the last one
      have hnext : m.next head = first := by
        obtain ⟨t, rfl⟩ := hfirst
        have hring := h.ring
        rw [hfs, List.nil_append, List.cons_append] at hring
        rw [h.next_eq hlast', next_head hring]
      have hback := hys.prev_next head List.mem_cons_self
      rw [hnext, h.prev, if_pos hfs, Function.update_self] at hback
      exact h.ne_head hlast' hback
    · rintro hbs
      have hprev : m.prev head = last := by
        obtain ⟨t, rfl⟩ := hlast
        have hring := h.ring
        rw [hbs, List.append_nil, ← List.append_assoc] at hring
        rw [h.prev_eq hfirst', prev_head hring]
      have hforth := hys.next_prev head List.mem_cons_self
      rw [hprev, h.next, if_pos hbs, Function.update_self] at hforth
      exact h.ne_head hfirst' hforth
  · rintro ⟨hfs, hbs⟩
    exact ⟨fs ++ xs ++ bs, h.wellFormed hfs hbs⟩

omit [DecidableEq A] in
private theorem grow_fst_ne_nil {adds : List (Addition A)} :
    (adds.foldl grow (fs, bs)).1 ≠ [] ↔ fs ≠ [] ∨ ∃ a, .front a ∈ adds := by
  induction adds generalizing fs bs with
  | nil => simp
  | cons a adds ih =>
    cases a with
    | front new => simp [grow, ih]
    | back new => simp [grow, ih]

omit [DecidableEq A] in
private theorem grow_snd_ne_nil {adds : List (Addition A)} :
    (adds.foldl grow (fs, bs)).2 ≠ [] ↔ bs ≠ [] ∨ ∃ a, .back a ∈ adds := by
  induction adds generalizing fs bs with
  | nil => simp
  | cons a adds ih =>
    cases a with
    | front new => simp [grow, ih]
    | back new => simp [grow, ih]

end Torn

section Runs

variable [DecidableEq A] {m : Links A} {head : A} {xs : List A}

/-- A walk from the head has one result. -/
private theorem wellFormed_unique {ys zs : List A} (hy : WellFormed m head ys) (hz : WellFormed m head zs) :
    ys = zs := by
  have hy' := hy.forEach (ys.length + zs.length + 1) (by omega)
  rw [hz.forEach (ys.length + zs.length + 1) (by omega)] at hy'
  exact (Option.some.inj hy').symm

/-- A ring with a node, whose head has been taken out of it, and to whose head then any new nodes are added in front and
behind: it is a ring again if and only if there is one of each, and then nothing is lost, of the old nodes and of the
new ones. -/
theorem wellFormed_iff_mended (h : WellFormed m head xs) (hxs : xs ≠ []) {adds : List (Addition A)}
    (hnodup : (head :: xs ++ adds.map Addition.new).Nodup) :
    ((∃ ys, WellFormed ((adds.map (Addition.op head)).foldl exec (listDel m head)) head ys) ↔
      (∃ a, .front a ∈ adds) ∧ ∃ a, .back a ∈ adds) ∧
    ∀ ys, WellFormed ((adds.map (Addition.op head)).foldl exec (listDel m head)) head ys →
      ys = (adds.foldl grow ([], [])).1 ++ xs ++ (adds.foldl grow ([], [])).2 := by
  obtain ⟨first, t, hfirst⟩ := List.exists_cons_of_ne_nil hxs
  have hlast : ∃ t, xs = t ++ [xs.getLast hxs] := ⟨_, (List.dropLast_concat_getLast hxs).symm⟩
  have htorn := torn_listDel (wellFormed_iff_ring.1 h) ⟨t, hfirst⟩ hlast
  have hnodup' : (head :: ([] ++ xs ++ []) ++ adds.map Addition.new).Nodup := by simpa using hnodup
  obtain ⟨r, htorn'⟩ := torn_run htorn ⟨t, hfirst⟩ hlast hnodup'
  have hiff := htorn'.wellFormed_iff ⟨t, hfirst⟩ hlast
  refine ⟨?_, fun ys hys => ?_⟩
  · rw [hiff, grow_fst_ne_nil, grow_snd_ne_nil]
    simp
  · obtain ⟨hfs, hbs⟩ := hiff.1 ⟨ys, hys⟩
    exact wellFormed_unique hys (htorn'.wellFormed hfs hbs)

/-- One node in front and one behind, around a ring of one node. -/
theorem wellFormed_iff_mended_two :
    ((∃ ys, WellFormed (([Addition.front 2, .back 3].map (Addition.op 0)).foldl exec
        (listDel (listAdd (listInit (⟨id, id⟩ : Links Nat) 0) 1 0) 0)) 0 ys) ↔
      (∃ a, .front a ∈ [Addition.front 2, .back 3]) ∧ ∃ a, .back a ∈ [Addition.front 2, .back 3]) ∧
    ∀ ys, WellFormed (([Addition.front 2, .back 3].map (Addition.op 0)).foldl exec
        (listDel (listAdd (listInit (⟨id, id⟩ : Links Nat) 0) 1 0) 0)) 0 ys →
      ys = ([Addition.front 2, .back 3].foldl grow ([], [])).1 ++ [1] ++
        ([Addition.front 2, .back 3].foldl grow ([], [])).2 := by
  refine wellFormed_iff_mended ?_ (by decide) (by decide)
  exact wellFormed_iff_ring.2 (ring_listAdd (ring_listInit _ _) (by decide))

/-- `main` of list/main.c. -/
def main (m : Links A) (l it1 it2 it3 : A) : Links A :=
  [.init l, .add it1 l, .add it2 l, .del l, .add it3 l].foldl exec m

/-- Whatever the heap, `main` leaves a list that is none. -/
theorem main_not_wellFormed {l it1 it2 it3 : A} (hnodup : [l, it2, it1, it3].Nodup) (ys : List A) :
    ¬ WellFormed (main m l it1 it2 it3) l ys := by
  have hit1 : it1 ∉ [l] := by grind
  have hit2 : it2 ∉ [l, it1] := by grind
  have hit3 : it3 ∉ [l, it2, it1] := by grind
  have hring : Ring (listAdd (listAdd (listInit m l) it1 l) it2 l) l [it2, it1] :=
    ring_listAdd (ring_listAdd (ring_listInit m l) hit1) hit2
  have htorn := torn_listDel hring ⟨[it1], rfl⟩ ⟨[it2], rfl⟩
  have htorn' := torn_listAdd htorn ⟨[it1], rfl⟩ (by simp) hit3
  intro h
  exact ((htorn'.wellFormed_iff ⟨[it1], rfl⟩ ⟨[it2], rfl⟩).1 ⟨ys, h⟩).2 rfl

end Runs

end UnixTasks.Modules
