import PredicateStrength.Formula.Basic

/-!
Main statement: the order of formulas is total and tells different formulas apart, so a sorted
list of distinct formulas depends on its elements only.
-/
namespace PredicateStrength

namespace Bound

theorem endCmp_eq_iff (a b : Option Int) : endCmp a b = .eq ↔ a = b := by
  cases a <;> cases b <;> simp [endCmp]

theorem endCmp_swap (a b : Option Int) : (endCmp a b).swap = endCmp b a := by
  cases a <;> cases b <;> simp [endCmp, ← Std.OrientedOrd.eq_swap]

theorem endCmp_lt_trans {a b c : Option Int} (hab : endCmp a b = .lt) (hbc : endCmp b c = .lt) :
    endCmp a c = .lt := by
  cases a <;> cases b <;> cases c <;> simp_all [endCmp]
  exact Std.TransCmp.lt_trans hab hbc

theorem cmp_eq_iff (a b : Bound) : a.cmp b = .eq ↔ a = b := by
  cases a <;> cases b <;> simp [cmp, Ordering.then_eq_eq, endCmp_eq_iff]

theorem cmp_swap (a b : Bound) : (a.cmp b).swap = b.cmp a := by
  cases a <;> cases b <;>
    simp [cmp, Ordering.swap_then, endCmp_swap, ← Std.OrientedOrd.eq_swap]

theorem cmp_lt_trans {a b c : Bound} (hab : a.cmp b = .lt) (hbc : b.cmp c = .lt) :
    a.cmp c = .lt := by
  cases a <;> cases b <;> cases c <;> simp only [cmp, reduceCtorEq] at *
  · exact Sorting.then_lt_trans endCmp_eq_iff hab hbc endCmp_lt_trans endCmp_lt_trans
  · exact Std.TransCmp.lt_trans hab hbc

instance : Std.LawfulEqCmp cmp where
  compare_self := (cmp_eq_iff _ _).2 rfl
  eq_of_compare := (cmp_eq_iff _ _).1

instance : Std.LawfulEqCmp endCmp where
  compare_self := (endCmp_eq_iff _ _).2 rfl
  eq_of_compare := (endCmp_eq_iff _ _).1

end Bound

namespace Constraint

theorem cmp_eq_iff (c d : Constraint) : c.cmp d = .eq ↔ c = d := by
  cases c; cases d
  simp [cmp, Ordering.then_eq_eq]

theorem cmp_swap (c d : Constraint) : (c.cmp d).swap = d.cmp c := by
  simp [cmp, Ordering.swap_then, Poly.cmp_swap, Bound.cmp_swap]

theorem cmp_lt_trans {a b c : Constraint} (hab : a.cmp b = .lt) (hbc : b.cmp c = .lt) :
    a.cmp c = .lt :=
  Sorting.then_lt_trans Poly.cmp_eq_iff hab hbc Poly.cmp_lt_trans Bound.cmp_lt_trans

instance : Std.TransCmp cmp :=
  Sorting.transCmp_of_lt_trans cmp_eq_iff cmp_swap fun _ _ _ => cmp_lt_trans

instance : Std.LawfulEqCmp cmp where
  compare_self := (cmp_eq_iff _ _).2 rfl
  eq_of_compare := (cmp_eq_iff _ _).1

end Constraint

namespace Formula

mutual
theorem cmp_eq_iff : ∀ f g : Formula, f.cmp g = .eq ↔ f = g
  | .const _, g => by cases g <;> simp [cmp, Formula.ctorIdx]
  | .prop _, g => by cases g <;> simp [cmp, Formula.ctorIdx]
  | .constraint _, g => by cases g <;> simp [cmp, Formula.ctorIdx]
  | .not f, g => by cases g <;> simp [cmp, Formula.ctorIdx, cmp_eq_iff f]
  | .and fs, g => by cases g <;> simp [cmp, Formula.ctorIdx, cmpList_eq_iff fs]
  | .or fs, g => by cases g <;> simp [cmp, Formula.ctorIdx, cmpList_eq_iff fs]

theorem cmpList_eq_iff : ∀ fs gs : List Formula, cmpList fs gs = .eq ↔ fs = gs
  | [], gs => by cases gs <;> simp [cmpList]
  | f :: fs, gs => by
    cases gs <;> simp [cmpList, Ordering.then_eq_eq, cmp_eq_iff f, cmpList_eq_iff fs]
end

mutual
theorem cmp_swap : ∀ f g : Formula, (f.cmp g).swap = g.cmp f
  | .const _, g => by cases g <;> simp [cmp, Formula.ctorIdx, ← Std.OrientedOrd.eq_swap]
  | .prop _, g => by
    cases g <;> simp [cmp, Formula.ctorIdx, ← Std.OrientedOrd.eq_swap, Atom.cmp_swap]
  | .constraint _, g => by
    cases g <;> simp [cmp, Formula.ctorIdx, ← Std.OrientedOrd.eq_swap, Constraint.cmp_swap]
  | .not f, g => by
    cases g <;> simp [cmp, Formula.ctorIdx, ← Std.OrientedOrd.eq_swap, cmp_swap f]
  | .and fs, g => by
    cases g <;> simp [cmp, Formula.ctorIdx, ← Std.OrientedOrd.eq_swap, cmpList_swap fs]
  | .or fs, g => by
    cases g <;> simp [cmp, Formula.ctorIdx, ← Std.OrientedOrd.eq_swap, cmpList_swap fs]

theorem cmpList_swap : ∀ fs gs : List Formula, (cmpList fs gs).swap = cmpList gs fs
  | [], gs => by cases gs <;> simp [cmpList]
  | f :: fs, gs => by
    cases gs <;> simp [cmpList, Ordering.swap_then, cmp_swap f, cmpList_swap fs]
end

theorem ctorIdx_le_of_cmp_lt {f g : Formula} (h : f.cmp g = .lt) : f.ctorIdx ≤ g.ctorIdx := by
  cases f <;> cases g <;> simp_all [cmp, Formula.ctorIdx, Nat.compare_eq_lt]

theorem cmp_lt_of_ctorIdx_lt {f g : Formula} (h : f.ctorIdx < g.ctorIdx) : f.cmp g = .lt := by
  cases f <;> cases g <;> simp_all [cmp, Formula.ctorIdx, Nat.compare_eq_lt]

mutual
theorem cmp_lt_trans : ∀ {f g h : Formula}, f.cmp g = .lt → g.cmp h = .lt → f.cmp h = .lt
  | f, g, h, hab, hbc => by
    have hi := ctorIdx_le_of_cmp_lt hab
    have hj := ctorIdx_le_of_cmp_lt hbc
    rcases Nat.lt_or_ge f.ctorIdx h.ctorIdx with hlt | hge
    · exact cmp_lt_of_ctorIdx_lt hlt
    have hi : f.ctorIdx = g.ctorIdx := by omega
    have hj : g.ctorIdx = h.ctorIdx := by omega
    cases f with
    | const x =>
      cases g <;> simp [Formula.ctorIdx] at hi
      cases h <;> simp [Formula.ctorIdx] at hj
      simp only [cmp] at *
      exact Std.TransCmp.lt_trans hab hbc
    | prop a =>
      cases g <;> simp [Formula.ctorIdx] at hi
      cases h <;> simp [Formula.ctorIdx] at hj
      simp only [cmp] at *
      exact Atom.cmp_lt_trans hab hbc
    | constraint c =>
      cases g <;> simp [Formula.ctorIdx] at hi
      cases h <;> simp [Formula.ctorIdx] at hj
      simp only [cmp] at *
      exact Constraint.cmp_lt_trans hab hbc
    | not f =>
      cases g <;> simp [Formula.ctorIdx] at hi
      cases h <;> simp [Formula.ctorIdx] at hj
      simp only [cmp] at *
      exact cmp_lt_trans hab hbc
    | and fs =>
      cases g <;> simp [Formula.ctorIdx] at hi
      cases h <;> simp [Formula.ctorIdx] at hj
      simp only [cmp] at *
      exact cmpList_lt_trans hab hbc
    | or fs =>
      cases g <;> simp [Formula.ctorIdx] at hi
      cases h <;> simp [Formula.ctorIdx] at hj
      simp only [cmp] at *
      exact cmpList_lt_trans hab hbc

theorem cmpList_lt_trans : ∀ {fs gs hs : List Formula},
    cmpList fs gs = .lt → cmpList gs hs = .lt → cmpList fs hs = .lt
  | [], [], _, hab, _ => by simp [cmpList] at hab
  | [], _ :: _, [], _, hbc => by simp [cmpList] at hbc
  | [], _ :: _, _ :: _, _, _ => by simp [cmpList]
  | _ :: _, [], _, hab, _ => by simp [cmpList] at hab
  | _ :: _, _ :: _, [], _, hbc => by simp [cmpList] at hbc
  | _ :: _, _ :: _, _ :: _, hab, hbc => by
    simp only [cmpList] at *
    exact Sorting.then_lt_trans cmp_eq_iff hab hbc cmp_lt_trans cmpList_lt_trans
end

instance : Std.TransCmp cmp :=
  Sorting.transCmp_of_lt_trans cmp_eq_iff cmp_swap fun _ _ _ => cmp_lt_trans

instance : Std.LawfulEqCmp cmp where
  compare_self := (cmp_eq_iff _ _).2 rfl
  eq_of_compare := (cmp_eq_iff _ _).1

instance : DecidableEq Formula := fun f g => decidable_of_iff _ (cmp_eq_iff f g)

end Formula
end PredicateStrength
