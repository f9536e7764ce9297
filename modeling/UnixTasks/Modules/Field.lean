import Mathlib.Data.BitVec
import UnixTasks.Modules.List

/-!
# Sums modulo m: field.c, mn.c and m16.c

Every module registers a field: a modulus, a function and a node of the list `fields`.  A call of `sum` looks for the
modulus; if nobody has it, the generic module `mn`, which is registered with the modulus 0, gets it.

* (`getField_eq`) `get_field` looks at the fields in the reverse order of their registration;
* (`sum_own`, `sum_same`, `sum_first`, `sum_lost`) the four kinds of call;
* (`sum_iff`) all calls are answered if and only if the generic module is asked for one modulus only.
-/

namespace UnixTasks.Modules

open ActionSystem Links

/-- The head of the list, and the fields `mn` of mn.c and `m16` of m16.c. -/
inductive Field where
  | fields | mn | m16
  deriving DecidableEq, Repr

/-- The memory: the pointers, and the member `m` of every field. -/
structure State where
  links : Links Field
  m : Field → BitVec 32

/-- `a + b` of two `int`; there is no result when it overflows. -/
def add (a b : BitVec 32) : Option (BitVec 32) := if a.saddOverflow b then none else some (a + b)

/-- `a % b`, likewise. -/
def rem (a b : BitVec 32) : Option (BitVec 32) :=
  if b = 0 ∨ (a = BitVec.intMin 32 ∧ b = -1) then none else some (a.srem b)

def sumn (s : State) (a b : BitVec 32) : Option (BitVec 32) := (add a b).bind fun c => rem c (s.m .mn)

def sum16 (a b : BitVec 32) : Option (BitVec 32) := (add a b).map fun c => c &&& 0b1111

/-- `f->sum(a, b)`. -/
def State.sumOf (s : State) (f : Field) (a b : BitVec 32) : Option (BitVec 32) :=
  match f with
  | .fields => none
  | .mn => sumn s a b
  | .m16 => sum16 a b

/-- `LIST_HEAD(fields)` and the initialisers of the two fields; the pointers of a field are not read before it is
registered. -/
def start (links : Links Field) : State where
  links := listInit links .fields
  m f := if f = .m16 then 16 else 0

def registerField (s : State) (f : Field) : State := { s with links := listAdd s.links f .fields }

/-- The loop of `get_field` from `f` on; `some none` is NULL. -/
def getFieldFrom (s : State) (m : BitVec 32) : Nat → Field → Option (Option Field)
  | 0, _ => none
  | fuel + 1, f =>
    if f = .fields then some none
    else if s.m f = m then some (some f)
    else getFieldFrom s m fuel (s.links.next f)

def getField (fuel : Nat) (s : State) (m : BitVec 32) : Option (Option Field) :=
  getFieldFrom s m fuel (s.links.next .fields)

/-- `sum(m, a, b)`: `none` when the NULL pointer is dereferenced. -/
def sum (fuel : Nat) (s : State) (m a b : BitVec 32) : Option (State × BitVec 32) :=
  match getField fuel s m with
  | some (some f) => (s.sumOf f a b).map (s, ·)
  | some none =>
    match getField fuel s 0 with
    | some (some f) =>
      let s : State := { s with m := Function.update s.m f m }
      (s.sumOf f a b).map (s, ·)
    | _ => none
  | none => none

/-! ### What the calls ask for -/

/-- A call with a positive modulus and two numbers that are not negative and have a sum. -/
structure Call where
  m : BitVec 32
  a : BitVec 32
  b : BitVec 32
  m_pos : 0 < m.toInt
  a_nonneg : 0 ≤ a.toInt
  b_nonneg : 0 ≤ b.toInt
  fits : a.toInt + b.toInt < 2 ^ 31
  deriving DecidableEq

def State.call (fuel : Nat) (s : State) (c : Call) : Option State := (sum fuel s c.m c.a c.b).map Prod.fst

/-- The call returns the sum modulo `m`, and if it falls back to the generic module, it finds it. -/
structure Answered (fuel : Nat) (s : State) (c : Call) : Prop where
  returns : ∃ s' r, sum fuel s c.m c.a c.b = some (s', r) ∧ r.toInt = (c.a.toInt + c.b.toInt) % c.m.toInt
  fallback : getField fuel s c.m = some none → ∃ f, getField fuel s 0 = some (some f)

/-- An order in which the modules are registered: `mn` is among them. -/
structure Order where
  order : List Field
  nodup : order.Nodup
  isField : .fields ∉ order
  generic : .mn ∈ order
  deriving DecidableEq

/-- The modules are loaded. -/
def Order.load (o : Order) (links : Links Field) : State := o.order.foldl registerField (start links)

/-- There is a module for the modulus of the call. -/
def Order.Own (o : Order) (c : Call) : Prop := .m16 ∈ o.order ∧ c.m = 16

instance (o : Order) (c : Call) : Decidable (o.Own c) := inferInstanceAs (Decidable (_ ∧ _))

/-! ### Arithmetic -/

theorem add_eq {a b : BitVec 32} (h : -2 ^ 31 ≤ a.toInt + b.toInt ∧ a.toInt + b.toInt < 2 ^ 31) :
    add a b = some (a + b) ∧ (a + b).toInt = a.toInt + b.toInt := by
  have hover : ¬ a.saddOverflow b := by
    simp only [BitVec.saddOverflow, ge_iff_le, Bool.or_eq_true, decide_eq_true_eq, not_or, not_le, not_lt]
    omega
  exact ⟨by rw [add, if_neg hover], BitVec.toInt_add_of_not_saddOverflow hover⟩

/-- The last four bits are the remainder that is not negative. -/
theorem toInt_and_mask (c : BitVec 32) : (c &&& 0b1111).toInt = c.toInt % 16 := by
  have hand : (c &&& 0b1111).toNat = c.toNat % 16 := by
    rw [BitVec.toNat_and]
    exact Nat.and_two_pow_sub_one_eq_mod _ 4
  have hc := BitVec.toInt_eq_toNat_cond c
  rw [BitVec.toInt_eq_toNat_cond, hand]
  split at hc <;> omega

theorem Call.add_eq (c : Call) : add c.a c.b = some (c.a + c.b) ∧ (c.a + c.b).toInt = c.a.toInt + c.b.toInt := by
  have ha := c.a_nonneg
  have hb := c.b_nonneg
  exact Modules.add_eq ⟨by omega, c.fits⟩

private theorem Call.sumn_eq {s : State} (c : Call) (hm : s.m .mn = c.m) :
    ∃ r, sumn s c.a c.b = some r ∧ r.toInt = (c.a.toInt + c.b.toInt) % c.m.toInt := by
  obtain ⟨hadd, hint⟩ := c.add_eq
  have hpos := c.m_pos
  have hrem : ¬ (c.m = 0 ∨ (c.a + c.b = BitVec.intMin 32 ∧ c.m = -1)) := by
    rintro (h | ⟨-, h⟩)
    · rw [h] at hpos
      exact absurd hpos (by decide)
    · rw [h] at hpos
      exact absurd hpos (by decide)
  refine ⟨(c.a + c.b).srem c.m, ?_, ?_⟩
  · rw [sumn, hadd, Option.bind_some, hm, rem, if_neg hrem]
  · have hnonneg : 0 ≤ c.a.toInt + c.b.toInt := by
      have ha := c.a_nonneg
      have hb := c.b_nonneg
      omega
    rw [BitVec.toInt_srem, hint, Int.tmod_eq_emod_of_nonneg hnonneg]

private theorem Call.sum16_eq (c : Call) (hm : c.m = 16) :
    ∃ r, sum16 c.a c.b = some r ∧ r.toInt = (c.a.toInt + c.b.toInt) % c.m.toInt := by
  obtain ⟨hadd, hint⟩ := c.add_eq
  have h16 : c.m.toInt = 16 := by
    rw [hm]
    rfl
  refine ⟨(c.a + c.b) &&& 0b1111, by rw [sum16, hadd, Option.map_some], ?_⟩
  rw [toInt_and_mask, hint, h16]

/-! ### The list of fields -/

private theorem getFieldFrom_of_forEachFrom {s : State} {m : BitVec 32} {fuel : Nat} {f : Field} {xs : List Field}
    (h : s.links.forEachFrom .fields fuel f = some xs) :
    getFieldFrom s m fuel f = some (xs.find? fun g => s.m g = m) := by
  induction fuel generalizing f xs with
  | zero => cases h
  | succ fuel ih =>
    rw [forEachFrom] at h
    rw [getFieldFrom]
    by_cases hf : f = .fields
    · rw [if_pos hf] at h ⊢
      cases h
      rfl
    · rw [if_neg hf] at h ⊢
      obtain ⟨ys, hys, rfl⟩ := Option.map_eq_some_iff.1 h
      by_cases hm : s.m f = m
      · rw [if_pos hm, List.find?_cons_of_pos (by simpa using hm)]
      · rw [if_neg hm, List.find?_cons_of_neg (by simpa using hm), ih hys]

/-- `get_field` returns the first field of the list with the modulus. -/
theorem getField_eq {s : State} {xs : List Field} (h : Ring s.links .fields xs) {fuel : Nat} (hfuel : xs.length < fuel)
    (m : BitVec 32) : getField fuel s m = some (xs.find? fun g => s.m g = m) :=
  getFieldFrom_of_forEachFrom (h.forEach_eq hfuel)

namespace Order

variable (o : Order)

theorem length_le : o.order.length ≤ 2 := by
  have hsub : o.order ⊆ [.mn, .m16] := by
    intro f hf
    cases f with
    | fields => exact absurd hf o.isField
    | mn | m16 => simp
  exact (List.subperm_of_subset o.nodup hsub).length_le

/-- The modules have been loaded, and `mn` has the modulus `k`. -/
structure Inv (k : BitVec 32) (s : State) : Prop where
  ring : Ring s.links .fields o.order.reverse
  m16 : s.m .m16 = 16
  mn : s.m .mn = k
  ne : .m16 ∈ o.order → k ≠ 16

private theorem ring_registerField {fs : List Field} {s : State} {xs : List Field} (h : Ring s.links .fields xs)
    (hnodup : (fs ++ xs).Nodup) (hfs : .fields ∉ fs) :
    Ring (fs.foldl registerField s).links .fields (fs.reverse ++ xs) ∧ (fs.foldl registerField s).m = s.m := by
  induction fs generalizing s xs with
  | nil => exact ⟨h, rfl⟩
  | cons f fs ih =>
    have hf : f ∉ .fields :: xs := by
      rw [List.mem_cons, not_or]
      refine ⟨fun heq => hfs (by simp [heq]), fun hmem => ?_⟩
      exact (List.nodup_cons.1 hnodup).1 (List.mem_append_right _ hmem)
    have hnodup' : (fs ++ f :: xs).Nodup := (List.perm_middle.nodup_iff).2 hnodup
    obtain ⟨hring, hm⟩ := ih (s := registerField s f) (ring_listAdd h hf) hnodup' fun hmem =>
      hfs (List.mem_cons_of_mem _ hmem)
    refine ⟨?_, hm⟩
    rw [List.reverse_cons, List.append_assoc]
    exact hring

theorem inv_load (links : Links Field) : o.Inv 0 (o.load links) := by
  have hnodup : (o.order ++ []).Nodup := by
    rw [List.append_nil]
    exact o.nodup
  obtain ⟨hring, hm⟩ := ring_registerField (s := start links) (ring_listInit links .fields) hnodup o.isField
  rw [List.append_nil] at hring
  refine ⟨hring, ?_, ?_, fun _ => by decide⟩
  · rw [load, hm]
    rfl
  · rw [load, hm]
    rfl

end Order

/-! ### One call -/

section Call

variable {o : Order} {k : BitVec 32} {s : State} {fuel : Nat} {c : Call}

/-- The two fields have different moduli. -/
private theorem Order.Inv.eq_of_m (h : o.Inv k s) {f g : Field} (hf : f ∈ o.order) (hg : g ∈ o.order)
    (hm : s.m g = s.m f) :
    g = f := by
  have h16 := h.m16
  have hmn := h.mn
  cases f <;> cases g
  all_goals first
    | rfl
    | exact absurd hf o.isField
    | exact absurd hg o.isField
    | skip
  · exact absurd (by rw [← hmn, ← hm, h16]) (h.ne hg)
  · exact absurd (by rw [← hmn, hm, h16]) (h.ne hf)

/-- Of the registered fields, the last one with the modulus is found. -/
private theorem Order.Inv.getField_eq_find (h : o.Inv k s) (hfuel : 2 < fuel) (m : BitVec 32) :
    getField fuel s m = some (o.order.reverse.find? fun g => s.m g = m) := by
  apply getField_eq h.ring
  have hle := o.length_le
  rw [List.length_reverse]
  omega

/-- A field with the modulus is found, if there is one. -/
theorem Order.Inv.getField_eq_some (h : o.Inv k s) (hfuel : 2 < fuel) {m : BitVec 32} {f : Field} (hf : f ∈ o.order)
    (hm : s.m f = m) : getField fuel s m = some (some f) := by
  rw [h.getField_eq_find hfuel]
  cases hfind : o.order.reverse.find? fun g => s.m g = m with
  | none =>
    have hnone := List.find?_eq_none.1 hfind f (List.mem_reverse.2 hf)
    simp [hm] at hnone
  | some g =>
    have hg := List.find?_some hfind
    have hmem : g ∈ o.order := List.mem_reverse.1 (List.mem_of_find?_eq_some hfind)
    rw [h.eq_of_m hf hmem (by simpa [hm] using hg)]

theorem Order.Inv.getField_eq_none (h : o.Inv k s) (hfuel : 2 < fuel) {m : BitVec 32} (hm : ∀ g ∈ o.order, s.m g ≠ m) :
    getField fuel s m = some none := by
  have hfind : (o.order.reverse.find? fun g => s.m g = m) = none := by
    rw [List.find?_eq_none]
    intro g hg
    simpa using hm g (List.mem_reverse.1 hg)
  rw [h.getField_eq_find hfuel, hfind]

/-- The modulus of the call belongs to nobody. -/
private theorem Order.Inv.getField_eq_none_of_call (h : o.Inv k s) (hfuel : 2 < fuel) (hown : ¬ o.Own c)
    (hk : c.m ≠ k) :
    getField fuel s c.m = some none := by
  refine h.getField_eq_none hfuel fun g hg => ?_
  cases g with
  | fields => exact absurd hg o.isField
  | mn =>
    rw [h.mn]
    exact hk.symm
  | m16 =>
    rw [h.m16]
    exact fun heq => hown ⟨hg, heq.symm⟩

theorem sum_of_getField {f : Field} {m a b r : BitVec 32} (hget : getField fuel s m = some (some f))
    (hsum : s.sumOf f a b = some r) : sum fuel s m a b = some (s, r) := by
  simp only [sum, hget, hsum, Option.map_some]

/-- The generic module gets the modulus and answers. -/
theorem sum_of_generic {m a b r : BitVec 32} (hnone : getField fuel s m = some none)
    (hgeneric : getField fuel s 0 = some (some .mn)) (hsum : (add a b).bind (rem · m) = some r) :
    sum fuel s m a b = some ({ s with m := Function.update s.m .mn m }, r) := by
  have hm : Function.update s.m .mn m .mn = m := Function.update_self ..
  have hsumn : sumn { s with m := Function.update s.m .mn m } a b = some r := by
    simp only [sumn, hm, hsum]
  simp only [sum, hnone, hgeneric, State.sumOf, hsumn, Option.map_some]

/-- A field with the modulus answers. -/
private theorem answered_of_getField {f : Field} {r : BitVec 32} (hget : getField fuel s c.m = some (some f))
    (hsum : s.sumOf f c.a c.b = some r) (hr : r.toInt = (c.a.toInt + c.b.toInt) % c.m.toInt) :
    s.call fuel c = some s ∧ Answered fuel s c := by
  have hcall : sum fuel s c.m c.a c.b = some (s, r) := sum_of_getField hget hsum
  refine ⟨by rw [State.call, hcall, Option.map_some], ⟨s, r, hcall, hr⟩, fun hnone => ?_⟩
  rw [hget] at hnone
  cases hnone

theorem sum_own (h : o.Inv k s) (hfuel : 2 < fuel) (hown : o.Own c) : s.call fuel c = some s ∧ Answered fuel s c := by
  obtain ⟨r, hsum, hr⟩ := c.sum16_eq hown.2
  have hm : s.m .m16 = c.m := by rw [h.m16, hown.2]
  exact answered_of_getField (h.getField_eq_some hfuel hown.1 hm) hsum hr

theorem sum_same (h : o.Inv k s) (hfuel : 2 < fuel) (hk : c.m = k) : s.call fuel c = some s ∧ Answered fuel s c := by
  have hm : s.m .mn = c.m := by rw [h.mn, hk]
  obtain ⟨r, hsum, hr⟩ := c.sumn_eq hm
  exact answered_of_getField (h.getField_eq_some hfuel o.generic hm) hsum hr

/-- The generic module gets the modulus. -/
theorem sum_first (h : o.Inv 0 s) (hfuel : 2 < fuel) (hown : ¬ o.Own c) (hk : c.m ≠ 0) :
    ∃ s', s.call fuel c = some s' ∧ o.Inv c.m s' ∧ Answered fuel s c := by
  have hnone := h.getField_eq_none_of_call hfuel hown hk
  have hgeneric := h.getField_eq_some hfuel o.generic h.mn
  let s' : State := { s with m := Function.update s.m .mn c.m }
  have hm : s'.m .mn = c.m := by simp only [s', Function.update_self]
  obtain ⟨r, hsum, hr⟩ := c.sumn_eq hm
  have hcall : sum fuel s c.m c.a c.b = some (s', r) := by
    rw [sumn, hm] at hsum
    exact sum_of_generic hnone hgeneric hsum
  refine ⟨s', by rw [State.call, hcall, Option.map_some], ⟨h.ring, ?_, hm, ?_⟩, ⟨s', r, hcall, hr⟩,
    fun _ => ⟨_, hgeneric⟩⟩
  · have hne : Field.m16 ≠ .mn := by decide
    simp only [s', Function.update_of_ne hne, h.m16]
  · exact fun h16 heq => hown ⟨h16, heq⟩

/-- The generic module has another modulus, and nobody has the modulus 0. -/
theorem sum_lost (h : o.Inv k s) (hfuel : 2 < fuel) (hown : ¬ o.Own c) (hk : c.m ≠ k) (h0 : k ≠ 0) :
    ¬ Answered fuel s c := by
  have hnone := h.getField_eq_none_of_call hfuel hown hk
  have hzero : getField fuel s 0 = some none := by
    refine h.getField_eq_none hfuel fun g hg => ?_
    cases g with
    | fields => exact absurd hg o.isField
    | mn => rwa [h.mn]
    | m16 =>
      rw [h.m16]
      decide
  intro hans
  obtain ⟨f, hf⟩ := hans.fallback hnone
  rw [hzero] at hf
  cases hf

end Call

/-! ### Runs -/

/-- The moduli that the calls leave to the generic module: if it has one already, that one only. -/
private theorem answered_iff {o : Order} {k : BitVec 32} {s : State} {fuel : Nat} {cs : List Call} (h : o.Inv k s)
    (hfuel : 2 < fuel) :
    AllSteps (State.call fuel) (Answered fuel) s cs ↔ ∃ g, (k ≠ 0 → g = k) ∧ ∀ c ∈ cs, o.Own c ∨ c.m = g := by
  induction cs generalizing k s with
  | nil => exact iff_of_true trivial ⟨k, fun _ => rfl, by simp⟩
  | cons c cs ih =>
    have hpos : c.m ≠ 0 := by
      intro h0
      have hpos := c.m_pos
      rw [h0] at hpos
      exact absurd hpos (by decide)
    by_cases hown : o.Own c
    · -- a module of its own answers, and nothing changes
      obtain ⟨hcall, hans⟩ := sum_own h hfuel hown
      rw [allSteps_cons hcall, ih h, and_iff_right hans]
      simp only [List.forall_mem_cons, hown, true_or, true_and]
    · by_cases hk : c.m = k
      · -- the generic module has the modulus already
        obtain ⟨hcall, hans⟩ := sum_same h hfuel hk
        rw [allSteps_cons hcall, ih h, and_iff_right hans]
        refine exists_congr fun g => and_congr_right fun hg => ?_
        have hgk : c.m = g := by rw [hk, hg (hk ▸ hpos)]
        simp only [List.forall_mem_cons, hgk, or_true, true_and]
      · by_cases h0 : k = 0
        · -- it takes the modulus, which is then the only one for the calls that are left
          subst h0
          obtain ⟨s', hcall, hinv, hans⟩ := sum_first h hfuel hown hpos
          rw [allSteps_cons hcall, ih hinv, and_iff_right hans]
          refine exists_congr fun g => ?_
          simp only [List.forall_mem_cons, hown, false_or, ne_eq, not_true_eq_false, false_implies, true_and, hpos,
            not_false_eq_true, true_implies, eq_comm (a := g)]
        · -- it has taken another one
          refine iff_of_false (fun hall => sum_lost h hfuel hown hk h0 hall.1) ?_
          rintro ⟨g, hg, hall⟩
          rcases hall c (List.mem_cons_self ..) with hc | hc
          · exact hown hc
          · exact hk (by rw [hc, hg h0])

/-- For every order of registration and every sequence of calls: every call is answered if and only if all moduli
without a module of their own are the same. -/
theorem sum_iff (o : Order) (links : Links Field) (fuel : Nat) (hfuel : 2 < fuel) (cs : List Call) :
    AllSteps (State.call fuel) (Answered fuel) (o.load links) cs ↔ ∃ g, ∀ c ∈ cs, o.Own c ∨ c.m = g := by
  rw [answered_iff (o.inv_load links) hfuel]
  simp

/-- Both modules, and the moduli 7, 16 and 7. -/
theorem sum_iff_seven : AllSteps (State.call 3) (Answered 3)
    ((⟨[.mn, .m16], by decide, by decide, by decide⟩ : Order).load ⟨id, id⟩)
    [⟨7, 5, 4, by decide, by decide, by decide, by decide⟩, ⟨16, 20, 4, by decide, by decide, by decide, by decide⟩,
      ⟨7, 3, 3, by decide, by decide, by decide, by decide⟩] :=
  (sum_iff ⟨[.mn, .m16], by decide, by decide, by decide⟩ ⟨id, id⟩ 3 (by decide) _).2 ⟨7, by decide⟩

/-- After a sum modulo 5, `sum(7, 1, 1)` finds no field, and the generic one is not found either. -/
theorem not_answered : ∃ (o : Order) (c d : Call) (s : State), State.call 3 (o.load ⟨id, id⟩) c = some s ∧
    getField 3 s d.m = some none ∧ getField 3 s 0 = some none ∧ sum 3 s d.m d.a d.b = none ∧
    ¬ AllSteps (State.call 3) (Answered 3) (o.load ⟨id, id⟩) [c, d] := by
  refine ⟨⟨[.mn], by decide, by decide, by decide⟩, ⟨5, 1, 1, by decide, by decide, by decide, by decide⟩,
    ⟨7, 1, 1, by decide, by decide, by decide, by decide⟩, _, rfl, rfl, rfl, rfl, ?_⟩
  rintro ⟨-, h⟩
  obtain ⟨s', r, hsum, -⟩ := h.1.returns
  cases hsum

end UnixTasks.Modules
