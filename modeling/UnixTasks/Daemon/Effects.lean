import UnixTasks.Daemon.System

/-!
# What copying, making a directory and notifying do

* (`copyLoop_eq`) the loop overwrites the file from its beginning, and leaves what lies behind;
* (`copy_node`, `mkdir_node`) the tree after a copy and after a directory has been made;
* (`EventAt`) the entry that an event is about; what is changed in a watched directory is in the queue
  (`exists_mem_notify`).
-/

namespace UnixTasks.Daemon

open CChar

/-! ### Copies -/

private theorem copyLoop_append (done rest out : List CChar) :
    copyLoop rest done.length (done ++ out) = done ++ rest ++ out.drop rest.length := by
  induction rest generalizing done out with
  | nil => simp [copyLoop]
  | cons b rest ih =>
    have hwrite : writeAt (done ++ out) done.length b = (done ++ [b]) ++ out.tail := by
      unfold writeAt
      cases out <;> simp
    have hih := ih (done ++ [b]) out.tail
    rw [List.length_append, List.length_singleton] at hih
    rw [copyLoop, hwrite, hih, List.drop_tail]
    simp

/-- The loop writes over the beginning of what is in the file. -/
theorem copyLoop_eq (bytes out : List CChar) : copyLoop bytes 0 out = bytes ++ out.drop bytes.length := by
  simpa using copyLoop_append [] bytes out

/-- The copy is exact if and only if nothing lies behind. -/
theorem copyLoop_eq_self_iff {bytes out : List CChar} : copyLoop bytes 0 out = bytes ↔ out.length ≤ bytes.length := by
  rw [copyLoop_eq]
  simp

/-- What is in the file at `q` when it is opened for writing. -/
def content (t : Tree) (q : List Name) : List CChar :=
  match t.node q with
  | some (.file old) => old
  | _ => []

theorem node_eq_content {t : Tree} {q : List Name} (h : t.CanPut q) (hne : t.node q ≠ none) :
    t.node q = some (.file (content t q)) := by
  unfold content
  cases hq : t.node q with
  | none => exact absurd hq hne
  | some x =>
    cases x with
    | dir => exact absurd hq h.not_dir
    | file old => rfl

theorem openWrite_none {t : Tree} {q : List Name} (h : ¬ t.CanPut q) : openWrite t q = none := by
  unfold openWrite
  split
  · rename_i old hq
    exact absurd (t.canPut_of_file hq) h
  · rfl
  · rw [if_neg h]

theorem openWrite_some {t : Tree} {q : List Name} (h : t.CanPut q) :
    ∃ t', openWrite t q = some (content t q, t') ∧ t'.CanPut q ∧
      t'.node = Function.update t.node q (some (.file (content t q))) := by
  cases hq : t.node q with
  | none =>
    refine ⟨t.set q (.file []), by simp [openWrite, content, hq, h], h.set [], ?_⟩
    simp only [content, hq]
    rw [FileTree.node_set _ h]
  | some x =>
    cases x with
    | dir => exact absurd hq h.not_dir
    | file old =>
      refine ⟨t, by simp [openWrite, content, hq], h, ?_⟩
      simp only [content, hq]
      rw [← hq, Function.update_eq_self]

/-- After a copy there is a file at `q`, if there can be one: it begins with what is at `p`, and it has not changed
unless something was read. -/
theorem copy_node {t : Tree} {p q : List Name} (h : t.CanPut q) :
    ∃ out, (copy t p q).node = Function.update t.node q (some (.file out)) ∧
      (∀ bytes, t.node p = some (.file bytes) → out = copyLoop bytes 0 (content t q)) ∧
      (out ≠ content t q → ∃ b bytes, t.node p = some (.file (b :: bytes))) := by
  obtain ⟨t', hopen, hput, hnode⟩ := openWrite_some h
  unfold copy
  rw [hopen]
  cases hp : t.node p with
  | none => exact ⟨content t q, hnode, by simp, by simp⟩
  | some x =>
    cases x with
    | dir => exact ⟨content t q, hnode, by simp, by simp⟩
    | file bytes =>
      refine ⟨copyLoop bytes 0 (content t q), ?_, by simp, ?_⟩
      · simp only
        rw [FileTree.node_set _ hput, hnode, Function.update_idem]
      · intro hne
        cases bytes with
        | nil => exact absurd rfl hne
        | cons b bytes => exact ⟨b, bytes, rfl⟩

theorem copy_of_not {t : Tree} {p q : List Name} (h : ¬ t.CanPut q) : copy t p q = t := by
  rw [copy, openWrite_none h]

theorem mkdir_node {t : Tree} {p : List Name} (hnone : t.node p = none) (h : t.CanPut p) :
    (mkdir t p).node = Function.update t.node p (some .dir) := by
  rw [mkdir, if_pos hnone, FileTree.node_set _ h]

theorem mkdir_of_not {t : Tree} {p : List Name} (h : ¬ (t.node p = none ∧ t.CanPut p)) : mkdir t p = t := by
  unfold mkdir
  split
  · rename_i hnone
    exact FileTree.set_of_not _ fun hput => h ⟨hnone, hput⟩
  · rfl

/-- A copy and a new directory are at their path only. -/
theorem copy_node_of_ne {t : Tree} {p q r : List Name} (h : r ≠ q) : (copy t p q).node r = t.node r := by
  by_cases hput : t.CanPut q
  · obtain ⟨out, hnode, -⟩ := copy_node (p := p) hput
    rw [hnode, Function.update_of_ne h]
  · rw [copy_of_not hput]

theorem mkdir_node_of_ne {t : Tree} {p r : List Name} (h : r ≠ p) : (mkdir t p).node r = t.node r := by
  by_cases hcan : t.node p = none ∧ t.CanPut p
  · rw [mkdir_node hcan.1 hcan.2, Function.update_of_ne h]
  · rw [mkdir_of_not hcan]

/-- What `readdir` returns: the two entries with dots, and what is in the directory. -/
theorem mem_entries {t : Tree} {d : List Name} {e : Entry} :
    e ∈ entries t d ↔ e = ⟨[chr '.'], true⟩ ∨ e = ⟨[chr '.', chr '.'], true⟩ ∨
      ∃ n, t.node (d ++ [n]) ≠ none ∧ e = ⟨n.text, t.node (d ++ [n]) = some .dir⟩ := by
  simp only [entries, List.mem_cons, List.mem_map, t.mem_names, eq_comm (a := e)]

/-! ### Events -/

/-- The event is about the entry `p` of a watched directory. -/
def EventAt (watches : List (List Name)) (e : Event) (p : List Name) : Prop :=
  ∃ i d n, e.wd = i + 1 ∧ watches[i]? = some d ∧ e.name = n.text ∧ p = d ++ [n]

section Notify

variable {watches : List (List Name)} {queue : List Event} {mask : Mask} {p : List Name} {e : Event}

private theorem eventAt_event {d : List Name} (hd : d ∈ watches) (n : Name) :
    EventAt watches (event watches mask d n) (d ++ [n]) :=
  ⟨watches.idxOf d, d, n, rfl, List.getElem?_idxOf hd, rfl, rfl⟩

private theorem mem_enqueue : e ∈ enqueue queue e := by
  unfold enqueue
  split
  · rename_i h
    exact List.mem_of_getLast? h
  · simp

private theorem mem_enqueue_of_mem {e' : Event} (h : e ∈ queue) : e ∈ enqueue queue e' := by
  unfold enqueue
  split
  · exact h
  · exact List.mem_append_left _ h

private theorem mem_of_mem_enqueue {e' : Event} (h : e ∈ enqueue queue e') : e ∈ queue ∨ e = e' := by
  unfold enqueue at h
  split at h
  · exact .inl h
  · simpa using h

theorem mem_notify_of_mem (h : e ∈ queue) : e ∈ notify watches mask p queue := by
  unfold notify
  split
  · split
    · exact mem_enqueue_of_mem h
    · exact h
  · exact h

/-- A change in a watched directory is in the queue. -/
theorem exists_mem_notify (hne : p ≠ []) (hw : p.dropLast ∈ watches) :
    ∃ n, event watches mask p.dropLast n ∈ notify watches mask p queue ∧
      EventAt watches (event watches mask p.dropLast n) p := by
  have hlast : p.getLast? = some (p.getLast hne) := List.getLast?_eq_some_getLast hne
  refine ⟨p.getLast hne, ?_, ?_⟩
  · simp only [notify, hlast, if_pos hw]
    exact mem_enqueue
  · have hat : EventAt watches (event watches mask p.dropLast _) _ := eventAt_event hw (p.getLast hne)
    rwa [List.dropLast_concat_getLast hne] at hat

theorem mem_of_mem_notify (h : e ∈ notify watches mask p queue) : e ∈ queue ∨ EventAt watches e p := by
  unfold notify at h
  split at h
  · rename_i n hn
    split at h
    · rename_i hd
      rcases mem_of_mem_enqueue h with h | rfl
      · exact .inl h
      · right
        have hat : EventAt watches (event watches mask p.dropLast _) _ := eventAt_event hd n
        rwa [List.dropLast_append_getLast? n hn] at hat
    · exact .inl h
  · exact .inl h

theorem mem_notifyCopy_of_mem {t : Tree} {watches : List (List Name)} {p q : List Name} {queue : List Event} {e : Event}
    (h : e ∈ queue) : e ∈ notifyCopy t watches p q queue := by
  have hcreate : e ∈ if t.node q = none then notify watches .create q queue else queue := by
    split
    · exact mem_notify_of_mem h
    · exact h
  unfold notifyCopy
  split
  · exact h
  · simp only
    split
    · exact mem_notify_of_mem hcreate
    · exact hcreate

theorem mem_of_mem_notifyCopy {t : Tree} {watches : List (List Name)} {p q : List Name} {queue : List Event} {e : Event}
    (h : e ∈ notifyCopy t watches p q queue) : e ∈ queue ∨ EventAt watches e q := by
  have hcreate : e ∈ (if t.node q = none then notify watches .create q queue else queue) →
      e ∈ queue ∨ EventAt watches e q := by
    intro h
    split at h
    · exact mem_of_mem_notify h
    · exact .inl h
  unfold notifyCopy at h
  split at h
  · exact .inl h
  · simp only at h
    split at h
    · rcases mem_of_mem_notify h with h | h
      · exact hcreate h
      · exact .inr h
    · exact hcreate h

end Notify

/-- What a descriptor stands for after a directory has been added: the directory, or what it stood for before. -/
theorem watch_spec (watches : List (List Name)) (d : List Name) :
    ∃ i, (watch watches d).2 = i + 1 ∧ (watch watches d).1[i]? = some d ∧ watches <+: (watch watches d).1 ∧
      (∀ j d', j ≠ i → (watch watches d).1[j]? = some d' → watches[j]? = some d') ∧
      ∀ d' ∈ (watch watches d).1, d' ∈ watches ∨ d' = d := by
  unfold watch
  by_cases hd : d ∈ watches
  · rw [if_pos hd]
    exact ⟨watches.idxOf d, rfl, List.getElem?_idxOf hd, List.prefix_refl _, fun _ _ _ h => h, fun _ h => .inl h⟩
  · rw [if_neg hd]
    refine ⟨watches.length, rfl, by simp, List.prefix_append .., fun j d' hj hd' => ?_,
      fun d' hd' => by simpa using hd'⟩
    have hlt : j < (watches ++ [d]).length := (List.getElem?_eq_some_iff.1 hd').1
    rw [List.length_append, List.length_singleton] at hlt
    rwa [List.getElem?_append_left (by omega)] at hd'

theorem nodup_watch {watches : List (List Name)} (d : List Name) (h : watches.Nodup) : (watch watches d).1.Nodup := by
  unfold watch
  split
  · exact h
  · rename_i hd
    refine List.nodup_append.2 ⟨h, List.nodup_singleton d, fun a ha b hb heq => hd ?_⟩
    rwa [← List.mem_singleton.1 hb, ← heq]

/-- No number is larger than the number of watches. -/
theorem watch_le_length (watches : List (List Name)) (d : List Name) :
    (watch watches d).2 ≤ (watch watches d).1.length := by
  unfold watch
  split
  · rename_i hd
    exact List.idxOf_lt_length_of_mem hd
  · rw [List.length_append, List.length_singleton]

/-- The last watch has the largest number. -/
theorem length_watch_lt {watches : List (List Name)} {d : List Name} {n : Nat} (h : watches.length < n)
    (hnumber : (watch watches d).2 < n) : (watch watches d).1.length < n := by
  unfold watch at hnumber ⊢
  split
  · exact h
  · rename_i hd
    rw [if_neg hd] at hnumber
    rwa [List.length_append, List.length_singleton]

end UnixTasks.Daemon
