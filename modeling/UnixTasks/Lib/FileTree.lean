import Mathlib.Data.List.Basic
import Mathlib.Data.List.Induction
import Mathlib.Logic.Function.Basic

/-!
# Trees of directories and files

A tree gives the node at every path (a list of names) and the names in every directory.  That the root is a directory,
that a node lies in a directory, and that the names are those of the nodes are fields of the structure.

* (`put`, `set`) a new node, or a file in the place of a file;
* (`remove`, `erase`) a file is taken away.
* (`canPut_of_file`) a file can be replaced;
* (`Bounded`) how deep the tree is.
-/

/-- A directory, or a file with what is in it. -/
inductive Node (β : Type*) where
  | dir
  | file (bytes : List β)
  deriving DecidableEq, Repr

structure FileTree (ν β : Type*) where
  node : List ν → Option (Node β)
  names : List ν → List ν
  root : node [] = some .dir
  parent (d : List ν) (n : ν) (h : node (d ++ [n]) ≠ none) : node d = some .dir
  mem_names (d : List ν) (n : ν) : n ∈ names d ↔ node (d ++ [n]) ≠ none

namespace FileTree

variable {ν β : Type*} (t : FileTree ν β)

/-- The tree in which there is only the root. -/
def empty [DecidableEq ν] : FileTree ν β where
  node p := if p = [] then some .dir else none
  names _ := []
  root := by simp
  parent d n h := by simp at h
  mem_names d n := by simp

theorem node_empty [DecidableEq ν] {p : List ν} (h : p ≠ []) : (empty : FileTree ν β).node p = none := if_neg h

/-- The path is not the root's, it lies in a directory, and there is no directory at it. -/
structure CanPut (p : List ν) : Prop where
  ne_nil : p ≠ []
  parent : t.node p.dropLast = some .dir
  not_dir : t.node p ≠ some .dir

instance [DecidableEq ν] [DecidableEq β] (p : List ν) : Decidable (t.CanPut p) :=
  decidable_of_iff (p ≠ [] ∧ t.node p.dropLast = some .dir ∧ t.node p ≠ some .dir)
    ⟨fun h => ⟨h.1, h.2.1, h.2.2⟩, fun h => ⟨h.ne_nil, h.parent, h.not_dir⟩⟩

theorem append_singleton_eq_iff {d p : List ν} {n : ν} (hp : p ≠ []) :
    d ++ [n] = p ↔ d = p.dropLast ∧ n = p.getLast hp := by
  constructor
  · rintro rfl
    simp
  · rintro ⟨rfl, rfl⟩
    exact List.dropLast_concat_getLast hp

/-- What leads to a node is a directory. -/
theorem node_of_append {p q : List ν} (hq : q ≠ []) (h : t.node (p ++ q) ≠ none) : t.node p = some .dir := by
  induction q using List.reverseRecOn with
  | nil => exact absurd rfl hq
  | append_singleton q n ih =>
    rw [← List.append_assoc] at h
    have hdir := t.parent _ n h
    by_cases hnil : q = []
    · rwa [hnil, List.append_nil] at hdir
    · apply ih hnil
      rw [hdir]
      exact Option.some_ne_none _

/-- There is nothing below an empty place. -/
theorem node_append_of_none {p : List ν} (h : t.node p = none) (q : List ν) : t.node (p ++ q) = none := by
  by_contra hq
  by_cases hnil : q = []
  · rw [hnil, List.append_nil] at hq
    exact hq h
  · have hdir := t.node_of_append hnil hq
    rw [h] at hdir
    cases hdir

/-- A file lies in a directory. -/
theorem canPut_of_file {p : List ν} {bytes : List β} (h : t.node p = some (.file bytes)) : t.CanPut p := by
  have hne : p ≠ [] := by
    rintro rfl
    rw [t.root] at h
    cases h
  refine ⟨hne, t.parent p.dropLast (p.getLast hne) ?_, by simp [h]⟩
  rw [List.dropLast_concat_getLast hne, h]
  simp

/-- No path to a node is longer than `N`. -/
def Bounded (N : Nat) : Prop := ∀ p, t.node p ≠ none → p.length ≤ N

theorem Bounded.below {t : FileTree ν β} {N : Nat} (h : t.Bounded N) (p x : List ν) (hx : t.node (p ++ x) ≠ none) :
    x.length ≤ N := by
  have hle := h _ hx
  rw [List.length_append] at hle
  omega

theorem bounded_empty [DecidableEq ν] (N : Nat) : (empty : FileTree ν β).Bounded N := by
  intro p hp
  by_cases hnil : p = []
  · rw [hnil]
    exact Nat.zero_le N
  · exact absurd (node_empty hnil) hp

section

variable [DecidableEq ν] {p : List ν}

/-- The tree with the node `x` at `p`. -/
def put (p : List ν) (x : Node β) (h : t.CanPut p) : FileTree ν β where
  node := Function.update t.node p (some x)
  names d := if d = p.dropLast ∧ (t.node p).isNone then t.names d ++ [p.getLast h.ne_nil] else t.names d
  root := by rw [Function.update_of_ne h.ne_nil.symm, t.root]
  parent d n hn := by
    have hd : t.node d = some .dir := by
      by_cases hp : d ++ [n] = p
      · rw [((append_singleton_eq_iff h.ne_nil).1 hp).1]
        exact h.parent
      · rw [Function.update_of_ne hp] at hn
        exact t.parent d n hn
    have hdp : d ≠ p := by
      rintro rfl
      exact h.not_dir hd
    rw [Function.update_of_ne hdp, hd]
  mem_names d n := by
    by_cases hp : d ++ [n] = p
    · obtain ⟨hd, hn⟩ := (append_singleton_eq_iff h.ne_nil).1 hp
      rw [hp, Function.update_self]
      by_cases hnone : t.node p = none
      · simp [hd, hn, hnone]
      · have hmem : n ∈ t.names d := (t.mem_names d n).2 (by rwa [hp])
        simp [hnone, hmem]
    · rw [Function.update_of_ne hp, ← t.mem_names d n]
      split
      · rename_i hif
        have hne : n ≠ p.getLast h.ne_nil := fun hn => hp ((append_singleton_eq_iff h.ne_nil).2 ⟨hif.1, hn⟩)
        simp [hne]
      · rfl

@[simp] theorem node_put (x : Node β) (h : t.CanPut p) : (t.put p x h).node = Function.update t.node p (some x) := rfl

/-- The tree without the file at `p`. -/
def remove (p : List ν) (h : t.node p ≠ some .dir) : FileTree ν β where
  node := Function.update t.node p none
  names d := (t.names d).filter fun n => d ++ [n] ≠ p
  root := by
    have hp : [] ≠ p := by
      rintro rfl
      exact h t.root
    rw [Function.update_of_ne hp, t.root]
  parent d n hn := by
    by_cases hp : d ++ [n] = p
    · rw [hp, Function.update_self] at hn
      exact absurd rfl hn
    · rw [Function.update_of_ne hp] at hn
      have hd := t.parent d n hn
      have hdp : d ≠ p := by
        rintro rfl
        exact h hd
      rw [Function.update_of_ne hdp, hd]
  mem_names d n := by
    by_cases hp : d ++ [n] = p
    · simp [hp]
    · simp [hp, t.mem_names d n]

@[simp] theorem node_remove (h : t.node p ≠ some .dir) : (t.remove p h).node = Function.update t.node p none := rfl

variable [DecidableEq β]

/-- The tree with the node `x` at `p`, where there can be one. -/
def set (p : List ν) (x : Node β) : FileTree ν β :=
  if h : t.CanPut p then t.put p x h else t

/-- The tree without the file at `p`, if there is one. -/
def erase (p : List ν) : FileTree ν β :=
  if h : t.node p ≠ some .dir then t.remove p h else t

variable {t}

theorem node_set (x : Node β) (h : t.CanPut p) : (t.set p x).node = Function.update t.node p (some x) := by
  rw [set, dif_pos h, node_put]

theorem set_of_not (x : Node β) (h : ¬ t.CanPut p) : t.set p x = t := dif_neg h

theorem node_erase (h : t.node p ≠ some .dir) : (t.erase p).node = Function.update t.node p none := by
  rw [erase, dif_pos h, node_remove]

theorem Bounded.set {N : Nat} (h : t.Bounded N) (hp : p.length ≤ N) (x : Node β) : (t.set p x).Bounded N := by
  intro q hq
  by_cases hput : t.CanPut p
  · by_cases heq : q = p
    · rwa [heq]
    · rw [node_set x hput, Function.update_of_ne heq] at hq
      exact h q hq
  · rw [set_of_not x hput] at hq
    exact h q hq

/-- A file that has been put can be put again. -/
theorem CanPut.set (h : t.CanPut p) (bytes : List β) : (t.set p (.file bytes)).CanPut p where
  ne_nil := h.ne_nil
  parent := by
    have hne : p.dropLast ≠ p := by
      intro heq
      exact h.not_dir (heq ▸ h.parent)
    rw [node_set _ h, Function.update_of_ne hne, h.parent]
  not_dir := by
    rw [node_set _ h, Function.update_self]
    simp

end

end FileTree
