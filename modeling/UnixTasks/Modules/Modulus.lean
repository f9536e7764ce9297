import UnixTasks.Modules.Field

/-!
# The modulus 16 twice: m16.c and mn.c

A sum modulo 16 is answered by `m16`, if this module is loaded, and otherwise by `mn`, which has got the modulus.  The
first keeps four bits of the sum, the second takes the remainder `%`, which has the sign of the sum.

* (`tmod_eq_emod_iff`) when the two remainders are the same;
* (`sum_sixteen_m16`, `sum_sixteen_mn`) what the first call returns with and without `m16`;
* (`sum_sixteen_iff`) the two results are the same exactly for the sums that are not negative or a multiple of 16.
-/

namespace UnixTasks.Modules

open ActionSystem Links

/-- The remainder of `%` is the one that is not negative only where the sign makes no difference. -/
theorem tmod_eq_emod_iff {c k : Int} (hk : 0 < k) : c.tmod k = c % k ↔ 0 ≤ c ∨ k ∣ c := by
  have habs : ((k.natAbs : Nat) : Int) ≠ 0 := by omega
  rw [Int.tmod_eq_emod]
  split
  · rename_i h
    simp [h]
  · rename_i h
    rw [iff_false_right h]
    omega

/-- The two ints have a sum that is an int. -/
def Fits (a b : BitVec 32) : Prop := -2 ^ 31 ≤ a.toInt + b.toInt ∧ a.toInt + b.toInt < 2 ^ 31

instance (a b : BitVec 32) : Decidable (Fits a b) := inferInstanceAs (Decidable (_ ∧ _))

section First

variable {o : Order} {s : State} {fuel : Nat} {a b : BitVec 32}

/-- With `m16` the result is not negative. -/
theorem sum_sixteen_m16 (h : o.Inv 0 s) (h16 : .m16 ∈ o.order) (hfuel : 2 < fuel) (hfits : Fits a b) :
    ∃ r, sum fuel s 16 a b = some (s, r) ∧ r.toInt = (a.toInt + b.toInt) % 16 := by
  obtain ⟨hadd, hint⟩ := add_eq hfits
  have hsum : s.sumOf .m16 a b = some ((a + b) &&& 0b1111) := by
    rw [State.sumOf, sum16, hadd, Option.map_some]
  refine ⟨_, sum_of_getField (h.getField_eq_some hfuel h16 h.m16) hsum, ?_⟩
  rw [toInt_and_mask, hint]

/-- Without it the result has the sign of the sum. -/
theorem sum_sixteen_mn (h : o.Inv 0 s) (h16 : .m16 ∉ o.order) (hfuel : 2 < fuel) (hfits : Fits a b) :
    ∃ s' r, sum fuel s 16 a b = some (s', r) ∧ r.toInt = (a.toInt + b.toInt).tmod 16 := by
  have hnone : getField fuel s 16 = some none := by
    refine h.getField_eq_none hfuel fun g hg => ?_
    cases g with
    | fields => exact absurd hg o.isField
    | m16 => exact absurd hg h16
    | mn =>
      rw [h.mn]
      decide
  have hgeneric := h.getField_eq_some hfuel o.generic h.mn
  obtain ⟨hadd, hint⟩ := add_eq hfits
  have hrem : ¬ ((16 : BitVec 32) = 0 ∨ (a + b = BitVec.intMin 32 ∧ (16 : BitVec 32) = -1)) := by
    rintro (h0 | ⟨-, h1⟩)
    · exact absurd h0 (by decide)
    · exact absurd h1 (by decide)
  have hsum : (add a b).bind (rem · 16) = some ((a + b).srem 16) := by
    rw [hadd, Option.bind_some, rem, if_neg hrem]
  refine ⟨_, _, sum_of_generic hnone hgeneric hsum, ?_⟩
  rw [BitVec.toInt_srem, hint]
  rfl

end First

/-- In two fresh processes, one with `m16` and one without, the first sum modulo 16 is the same if and only if it is a
sum of at least 0 or a multiple of 16. -/
theorem sum_sixteen_iff (o o' : Order) (h16 : .m16 ∈ o.order) (hmn : .m16 ∉ o'.order) (links links' : Links Field)
    (fuel : Nat) (hfuel : 2 < fuel) (a b : BitVec 32) (hfits : Fits a b) :
    ∃ s s' r r', sum fuel (o.load links) 16 a b = some (s, r) ∧ sum fuel (o'.load links') 16 a b = some (s', r') ∧
      (r = r' ↔ 0 ≤ a.toInt + b.toInt ∨ 16 ∣ a.toInt + b.toInt) := by
  obtain ⟨r, hsum, hr⟩ := sum_sixteen_m16 (o.inv_load links) h16 hfuel hfits
  obtain ⟨s', r', hsum', hr'⟩ := sum_sixteen_mn (o'.inv_load links') hmn hfuel hfits
  refine ⟨_, s', r, r', hsum, hsum', ?_⟩
  rw [← BitVec.toInt_inj, hr, hr', eq_comm]
  exact tmod_eq_emod_iff (by decide)

/-- The sum of -17 and 33, and both modules. -/
theorem sum_sixteen_iff_sixteen : ∃ s s' r r',
    sum 3 ((⟨[.m16, .mn], by decide, by decide, by decide⟩ : Order).load ⟨id, id⟩) 16 (-17) 33 = some (s, r) ∧
    sum 3 ((⟨[.mn], by decide, by decide, by decide⟩ : Order).load ⟨id, id⟩) 16 (-17) 33 = some (s', r') ∧
      (r = r' ↔ 0 ≤ (-17 : BitVec 32).toInt + (33 : BitVec 32).toInt ∨
        16 ∣ (-17 : BitVec 32).toInt + (33 : BitVec 32).toInt) :=
  sum_sixteen_iff ⟨[.m16, .mn], by decide, by decide, by decide⟩ ⟨[.mn], by decide, by decide, by decide⟩ (by decide)
    (by decide) ⟨id, id⟩ ⟨id, id⟩ 3 (by decide) (-17) 33 (by decide)

/-- `sum(16, -1, 0)` is 15 with `m16`, in whichever order the modules are loaded, and -1 without. -/
theorem sum_sixteen_ne : ∃ o p q : Order, ∃ s s' s'' : State,
    o.order = [.mn, .m16] ∧ p.order = [.m16, .mn] ∧ q.order = [.mn] ∧ Fits (-1) 0 ∧
    sum 3 (o.load ⟨id, id⟩) 16 (-1) 0 = some (s, 15) ∧ sum 3 (p.load ⟨id, id⟩) 16 (-1) 0 = some (s', 15) ∧
    sum 3 (q.load ⟨id, id⟩) 16 (-1) 0 = some (s'', -1) ∧ (15 : BitVec 32) ≠ -1 :=
  ⟨⟨[.mn, .m16], by decide, by decide, by decide⟩, ⟨[.m16, .mn], by decide, by decide, by decide⟩,
    ⟨[.mn], by decide, by decide, by decide⟩, _, _, _, rfl, rfl, rfl, by decide, rfl, rfl, rfl, by decide⟩

end UnixTasks.Modules
