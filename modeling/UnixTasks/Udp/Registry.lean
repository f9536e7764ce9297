import UnixTasks.Udp.Server

/-!
# The registry of the UDP server

What the two scans of `mas` do: `connect_id` takes the first slot that is free or has the id already, `find` takes the
first slot that has the id.  After `connect_id` has taken a slot, `find` finds this one, and finds all other ids where
it found them before (`connectId_find`).
-/

namespace UnixTasks.Udp

variable {id : Int} {mas : List Int}

/-- What a slot holds after one has been set. -/
theorem getElem?_set_cases {k j : Nat} {m x : Int} (h : (mas.set k m)[j]? = some x) :
    (j = k ∧ x = m) ∨ (j ≠ k ∧ mas[j]? = some x) := by
  by_cases hjk : j = k
  · left
    rw [hjk, List.getElem?_set, if_pos rfl] at h
    split at h
    · exact ⟨hjk, (Option.some.inj h).symm⟩
    · cases h
  · right
    rw [List.getElem?_set_ne (Ne.symm hjk)] at h
    exact ⟨hjk, h⟩

/-- The slots in use after one has become free. -/
theorem getElem?_of_set_zero {k j : Nat} {x : Int} (hx : x ≠ 0) (h : (mas.set k 0)[j]? = some x) :
    j ≠ k ∧ mas[j]? = some x := (getElem?_set_cases h).resolve_left fun hset => hx hset.2

/-- No slot before `k` is one that `connect_id` would take. -/
def TakenBelow (id : Int) (mas : List Int) (k : Nat) : Prop := ∀ j < k, ∀ m, mas[j]? = some m → m ≠ 0 ∧ m ≠ id

private theorem connectIdFrom_spec (i : Nat) (id : Int) (mas : List Int) :
    (connectIdFrom i id mas = (-1, mas) ∧ ∀ m ∈ mas, m ≠ 0 ∧ m ≠ id) ∨
      ∃ k, k < mas.length ∧ connectIdFrom i id mas = (↑(i + k), mas.set k id) ∧
        (mas[k]? = some 0 ∨ mas[k]? = some id) ∧ TakenBelow id mas k := by
  induction mas generalizing i with
  | nil => exact .inl ⟨rfl, by simp⟩
  | cons m mas ih =>
    unfold connectIdFrom
    by_cases hm : m = 0 ∨ m = id
    · right
      refine ⟨0, by simp, by simp [hm], ?_, by simp [TakenBelow]⟩
      rcases hm with hm | hm <;> simp [hm]
    · have hm' := not_or.1 hm
      rw [if_neg hm]
      rcases ih (i + 1) with ⟨heq, hall⟩ | ⟨k, hk, heq, hslot, hbelow⟩
      · left
        rw [heq]
        refine ⟨rfl, ?_⟩
        intro x hx
        rcases List.mem_cons.1 hx with rfl | hx
        · exact hm'
        · exact hall x hx
      · right
        refine ⟨k + 1, by simpa using hk, ?_, by simpa using hslot, ?_⟩
        · rw [heq, List.set_cons_succ, Nat.add_assoc, Nat.add_comm 1 k]
        · intro j hj x hx
          cases j with
          | zero =>
            obtain rfl : m = x := by simpa using hx
            exact hm'
          | succ j => exact hbelow j (by omega) x (by simpa using hx)

private theorem findFrom_spec (i : Nat) (id : Int) (mas : List Int) :
    (findFrom i id mas = -1 ∧ id ∉ mas) ∨
      ∃ k, k < mas.length ∧ findFrom i id mas = ↑(i + k) ∧ mas[k]? = some id ∧ ∀ j < k, mas[j]? ≠ some id := by
  induction mas generalizing i with
  | nil => exact .inl ⟨rfl, by simp⟩
  | cons m mas ih =>
    unfold findFrom
    by_cases hm : m = id
    · exact .inr ⟨0, by simp, by simp [hm], by simp [hm], by simp⟩
    · rw [if_neg hm]
      rcases ih (i + 1) with ⟨heq, hnot⟩ | ⟨k, hk, heq, hslot, hbelow⟩
      · exact .inl ⟨heq, by simp [hnot, Ne.symm hm]⟩
      · right
        refine ⟨k + 1, by simpa using hk, ?_, by simpa using hslot, ?_⟩
        · rw [heq, Nat.add_assoc, Nat.add_comm 1 k]
        · intro j hj
          cases j with
          | zero => simpa using hm
          | succ j => simpa using hbelow j (by omega)

/-- `connect_id` finds no slot, or takes the first one that fits. -/
theorem connectId_spec (id : Int) (mas : List Int) :
    (connectId id mas = (-1, mas) ∧ ∀ m ∈ mas, m ≠ 0 ∧ m ≠ id) ∨
      ∃ k : Nat, k < mas.length ∧ connectId id mas = (↑k, mas.set k id) ∧
        (mas[k]? = some 0 ∨ mas[k]? = some id) ∧ TakenBelow id mas k := by
  simpa [connectId] using connectIdFrom_spec 0 id mas

/-- `find` finds nothing, or the first slot with the id. -/
theorem find_spec (id : Int) (mas : List Int) :
    (find id mas = -1 ∧ id ∉ mas) ∨
      ∃ k : Nat, k < mas.length ∧ find id mas = ↑k ∧ mas[k]? = some id ∧ ∀ j < k, mas[j]? ≠ some id := by
  simpa [find] using findFrom_spec 0 id mas

/-! ### A lookup after a connect -/

/-- Writing a slot that another id does not have, and with yet another one, leaves the lookup alone. -/
private theorem findFrom_set_ne {other : Int} (hne : id ≠ other) (i : Nat) {k : Nat} (hk : mas[k]? ≠ some other) :
    findFrom i other (mas.set k id) = findFrom i other mas := by
  induction mas generalizing i k with
  | nil => rfl
  | cons m mas ih =>
    cases k with
    | zero =>
      have hm : m ≠ other := fun h => hk (congrArg some h)
      rw [List.set_cons_zero, findFrom, findFrom, if_neg hne, if_neg hm]
    | succ k =>
      rw [List.set_cons_succ, findFrom, findFrom, ih (i + 1) (by simpa using hk)]

private theorem find_set_of_taken {k : Nat} (hk : k < mas.length) (hbelow : TakenBelow id mas k) :
    find id (mas.set k id) = k := by
  have hself : (mas.set k id)[k]? = some id := List.getElem?_set_self hk
  rcases find_spec id (mas.set k id) with ⟨-, hnot⟩ | ⟨j, hj, heq, hslot, hfirst⟩
  · exact absurd (List.mem_of_getElem? hself) hnot
  · have hjk : j ≤ k := by
      by_contra hlt
      exact hfirst k (by omega) hself
    have hkj : ¬ j < k := by
      intro hlt
      rw [List.getElem?_set_ne (by omega)] at hslot
      exact (hbelow j hlt id hslot).2 rfl
    rw [heq]
    omega

/-- For every content of `mas` and every id: the slot that `connect_id` returns is the one that `find` finds afterwards,
nothing else has changed for the other ids and slots, and -1 means that no slot is free or has the id. -/
theorem connectId_find (id : Int) (mas : List Int) :
    (0 ≤ (connectId id mas).1 →
      find id (connectId id mas).2 = (connectId id mas).1 ∧
      (∀ other, other ≠ 0 → other ≠ id → find other (connectId id mas).2 = find other mas) ∧
      (connectId id mas).2.length = mas.length ∧
      ∀ j : Nat, (j : Int) ≠ (connectId id mas).1 → (connectId id mas).2[j]? = mas[j]?) ∧
    ((connectId id mas).1 = -1 ↔ ∀ m ∈ mas, m ≠ 0 ∧ m ≠ id) ∧
    ((connectId id mas).1 = -1 → (connectId id mas).2 = mas) := by
  rcases connectId_spec id mas with ⟨heq, hall⟩ | ⟨k, hk, heq, hslot, hbelow⟩
  · rw [heq]
    refine ⟨?_, ?_, fun _ => rfl⟩
    · intro h
      omega
    · exact iff_of_true rfl hall
  · rw [heq]
    refine ⟨fun _ => ⟨find_set_of_taken hk hbelow, ?_, List.length_set, ?_⟩, ?_, ?_⟩
    · intro other h0 hne
      apply findFrom_set_ne (Ne.symm hne)
      intro hother
      rcases hslot with hfree | hown
      · exact h0 (Option.some.inj (hother.symm.trans hfree))
      · exact hne (Option.some.inj (hother.symm.trans hown))
    · intro j hj
      rw [List.getElem?_set_ne]
      intro hkj
      exact hj (congrArg Nat.cast hkj.symm)
    · refine iff_of_false ?_ ?_
      · show (k : Int) ≠ -1
        omega
      · intro hall
        rcases hslot with hfree | hown
        · exact (hall 0 (List.mem_of_getElem? hfree)).1 rfl
        · exact (hall id (List.mem_of_getElem? hown)).2 rfl
    · intro h
      have hneg : (k : Int) = -1 := h
      omega

/-- The slot before an entry of the same id is free. -/
example : connectId 7 [5, 0, 7] = (1, [5, 7, 7]) ∧ find 7 [5, 7, 7] = 1 := by decide

end UnixTasks.Udp
