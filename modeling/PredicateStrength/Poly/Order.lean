import PredicateStrength.Expr.Order
import PredicateStrength.Poly.Basic

/-!
The order in which factors and terms are listed: atoms by their kind and then their parts,
monomials and polynomials factor by factor and term by term, a proper beginning first.

Main statement: the order is total and tells different atoms, monomials and polynomials apart.
-/
namespace PredicateStrength

def Head.cmp : Head → Head → Ordering
  | .function a, .function b => compare a b
  | .index a, .index b => compare a b
  | .indexField a f, .indexField b g => (compare a b).then (compare f g)
  | a, b => compare a.ctorIdx b.ctorIdx

/-- Rationals compare by value. -/
def ratCmp (a b : Rat) : Ordering := if a < b then .lt else if a = b then .eq else .gt

mutual
def Atom.cmp : Atom → Atom → Ordering
  | .symbol a, .symbol b => compare a b
  | .app h ps, .app k qs => (h.cmp k).then (Poly.cmpList ps qs)
  | .quot p q, .quot r s => (p.cmp r).then (q.cmp s)
  | .rem p q, .rem r s => (p.cmp r).then (q.cmp s)
  | .verbatim e, .verbatim f => e.cmp f
  | a, b => compare a.ctorIdx b.ctorIdx

def Factor.cmpList : List Factor → List Factor → Ordering
  | [], [] => .eq
  | [], _ :: _ => .lt
  | _ :: _, [] => .gt
  | ⟨a, m⟩ :: fs, ⟨b, n⟩ :: gs => (a.cmp b).then ((compare m n).then (Factor.cmpList fs gs))

def Monomial.cmp : Monomial → Monomial → Ordering
  | ⟨fs⟩, ⟨gs⟩ => Factor.cmpList fs gs

def Term.cmpList : List Term → List Term → Ordering
  | [], [] => .eq
  | [], _ :: _ => .lt
  | _ :: _, [] => .gt
  | ⟨m, c⟩ :: ts, ⟨n, d⟩ :: us => (m.cmp n).then ((ratCmp c d).then (Term.cmpList ts us))

def Poly.cmp : Poly → Poly → Ordering
  | ⟨ts⟩, ⟨us⟩ => Term.cmpList ts us

def Poly.cmpList : List Poly → List Poly → Ordering
  | [], [] => .eq
  | [], _ :: _ => .lt
  | _ :: _, [] => .gt
  | p :: ps, q :: qs => (p.cmp q).then (Poly.cmpList ps qs)
end

theorem Head.cmp_eq_iff (a b : Head) : a.cmp b = .eq ↔ a = b := by
  cases a <;> cases b <;> simp [cmp, Head.ctorIdx, Ordering.then_eq_eq]

theorem Head.cmp_swap (a b : Head) : (a.cmp b).swap = b.cmp a := by
  cases a <;> cases b <;>
    simp [cmp, Head.ctorIdx, ← Std.OrientedOrd.eq_swap, Ordering.swap_then]

theorem ratCmp_eq_iff (a b : Rat) : ratCmp a b = .eq ↔ a = b := by
  unfold ratCmp
  split
  · next h => simpa using Rat.ne_of_lt h
  · split <;> simp_all

theorem ratCmp_lt_iff (a b : Rat) : ratCmp a b = .lt ↔ a < b := by
  unfold ratCmp
  split
  · simp_all
  · split <;> simp_all

theorem ratCmp_swap (a b : Rat) : (ratCmp a b).swap = ratCmp b a := by
  simp only [ratCmp]
  grind [Ordering.swap_lt, Ordering.swap_eq, Ordering.swap_gt]

mutual
theorem Atom.cmp_eq_iff : ∀ a b : Atom, a.cmp b = .eq ↔ a = b
  | .symbol _, b => by cases b <;> simp [Atom.cmp, Atom.ctorIdx]
  | .app h ps, b => by
    cases b <;> simp [Atom.cmp, Atom.ctorIdx, Ordering.then_eq_eq, Head.cmp_eq_iff,
      Poly.cmpList_eq_iff ps]
  | .quot p q, b => by
    cases b <;> simp [Atom.cmp, Atom.ctorIdx, Ordering.then_eq_eq, Poly.cmp_eq_iff p,
      Poly.cmp_eq_iff q]
  | .rem p q, b => by
    cases b <;> simp [Atom.cmp, Atom.ctorIdx, Ordering.then_eq_eq, Poly.cmp_eq_iff p,
      Poly.cmp_eq_iff q]
  | .verbatim e, b => by cases b <;> simp [Atom.cmp, Atom.ctorIdx]

theorem Factor.cmpList_eq_iff : ∀ fs gs : List Factor, Factor.cmpList fs gs = .eq ↔ fs = gs
  | [], gs => by cases gs <;> simp [Factor.cmpList]
  | ⟨a, m⟩ :: fs, [] => by simp [Factor.cmpList]
  | ⟨a, m⟩ :: fs, ⟨b, n⟩ :: gs => by
    simp [Factor.cmpList, Ordering.then_eq_eq, Atom.cmp_eq_iff a, Factor.cmpList_eq_iff fs,
      and_assoc]

theorem Monomial.cmp_eq_iff : ∀ m n : Monomial, m.cmp n = .eq ↔ m = n
  | ⟨fs⟩, ⟨gs⟩ => by simp [Monomial.cmp, Factor.cmpList_eq_iff fs]

theorem Term.cmpList_eq_iff : ∀ ts us : List Term, Term.cmpList ts us = .eq ↔ ts = us
  | [], us => by cases us <;> simp [Term.cmpList]
  | ⟨m, c⟩ :: ts, [] => by simp [Term.cmpList]
  | ⟨m, c⟩ :: ts, ⟨n, d⟩ :: us => by
    simp [Term.cmpList, Ordering.then_eq_eq, Monomial.cmp_eq_iff m, ratCmp_eq_iff,
      Term.cmpList_eq_iff ts, and_assoc]

theorem Poly.cmp_eq_iff : ∀ p q : Poly, p.cmp q = .eq ↔ p = q
  | ⟨ts⟩, ⟨us⟩ => by simp [Poly.cmp, Term.cmpList_eq_iff ts]

theorem Poly.cmpList_eq_iff : ∀ ps qs : List Poly, Poly.cmpList ps qs = .eq ↔ ps = qs
  | [], qs => by cases qs <;> simp [Poly.cmpList]
  | p :: ps, [] => by simp [Poly.cmpList]
  | p :: ps, q :: qs => by
    simp [Poly.cmpList, Ordering.then_eq_eq, Poly.cmp_eq_iff p, Poly.cmpList_eq_iff ps]
end

mutual
theorem Atom.cmp_swap : ∀ a b : Atom, (a.cmp b).swap = b.cmp a
  | .symbol _, b => by cases b <;> simp [Atom.cmp, Atom.ctorIdx, ← Std.OrientedOrd.eq_swap]
  | .app h ps, b => by
    cases b <;> simp [Atom.cmp, Atom.ctorIdx, ← Std.OrientedOrd.eq_swap, Ordering.swap_then,
      Head.cmp_swap, Poly.cmpList_swap ps]
  | .quot p q, b => by
    cases b <;> simp [Atom.cmp, Atom.ctorIdx, ← Std.OrientedOrd.eq_swap, Ordering.swap_then,
      Poly.cmp_swap p, Poly.cmp_swap q]
  | .rem p q, b => by
    cases b <;> simp [Atom.cmp, Atom.ctorIdx, ← Std.OrientedOrd.eq_swap, Ordering.swap_then,
      Poly.cmp_swap p, Poly.cmp_swap q]
  | .verbatim e, b => by
    cases b <;> simp [Atom.cmp, Atom.ctorIdx, ← Std.OrientedOrd.eq_swap, Expr.cmp_swap]

theorem Factor.cmpList_swap : ∀ fs gs : List Factor,
    (Factor.cmpList fs gs).swap = Factor.cmpList gs fs
  | [], gs => by cases gs <;> simp [Factor.cmpList]
  | ⟨a, m⟩ :: fs, [] => by simp [Factor.cmpList]
  | ⟨a, m⟩ :: fs, ⟨b, n⟩ :: gs => by
    simp [Factor.cmpList, Ordering.swap_then, Atom.cmp_swap a, Factor.cmpList_swap fs,
      ← Std.OrientedOrd.eq_swap]

theorem Monomial.cmp_swap : ∀ m n : Monomial, (m.cmp n).swap = n.cmp m
  | ⟨fs⟩, ⟨gs⟩ => by simp [Monomial.cmp, Factor.cmpList_swap fs]

theorem Term.cmpList_swap : ∀ ts us : List Term,
    (Term.cmpList ts us).swap = Term.cmpList us ts
  | [], us => by cases us <;> simp [Term.cmpList]
  | ⟨m, c⟩ :: ts, [] => by simp [Term.cmpList]
  | ⟨m, c⟩ :: ts, ⟨n, d⟩ :: us => by
    simp [Term.cmpList, Ordering.swap_then, Monomial.cmp_swap m, ratCmp_swap,
      Term.cmpList_swap ts]

theorem Poly.cmp_swap : ∀ p q : Poly, (p.cmp q).swap = q.cmp p
  | ⟨ts⟩, ⟨us⟩ => by simp [Poly.cmp, Term.cmpList_swap ts]

theorem Poly.cmpList_swap : ∀ ps qs : List Poly, (Poly.cmpList ps qs).swap = Poly.cmpList qs ps
  | [], qs => by cases qs <;> simp [Poly.cmpList]
  | p :: ps, [] => by simp [Poly.cmpList]
  | p :: ps, q :: qs => by
    simp [Poly.cmpList, Ordering.swap_then, Poly.cmp_swap p, Poly.cmpList_swap ps]
end

theorem ratCmp_lt_trans {a b c : Rat} (hab : ratCmp a b = .lt) (hbc : ratCmp b c = .lt) :
    ratCmp a c = .lt := by
  simp only [ratCmp_lt_iff] at *
  grind

theorem Head.cmp_lt_trans {a b c : Head} (hab : a.cmp b = .lt) (hbc : b.cmp c = .lt) :
    a.cmp c = .lt := by
  cases a <;> cases b <;> cases c <;>
    simp only [cmp, Head.ctorIdx, Nat.compare_eq_lt] at * <;>
    first
      | exact Std.TransCmp.lt_trans hab hbc
      | omega
      | exact Sorting.then_lt_trans (fun _ _ => Std.compare_eq_iff_eq) hab hbc
          Std.TransCmp.lt_trans Std.TransCmp.lt_trans

theorem Atom.ctorIdx_le_of_cmp_lt {a b : Atom} (h : a.cmp b = .lt) : a.ctorIdx ≤ b.ctorIdx := by
  cases a <;> cases b <;> simp_all [cmp, Atom.ctorIdx, Nat.compare_eq_lt]

theorem Atom.cmp_lt_of_ctorIdx_lt {a b : Atom} (h : a.ctorIdx < b.ctorIdx) : a.cmp b = .lt := by
  cases a <;> cases b <;> simp_all [cmp, Atom.ctorIdx, Nat.compare_eq_lt]

mutual
theorem Atom.cmp_lt_trans : ∀ {a b c : Atom}, a.cmp b = .lt → b.cmp c = .lt → a.cmp c = .lt
  | a, b, c, hab, hbc => by
    have hi := Atom.ctorIdx_le_of_cmp_lt hab
    have hj := Atom.ctorIdx_le_of_cmp_lt hbc
    rcases Nat.lt_or_ge a.ctorIdx c.ctorIdx with hlt | hge
    · exact Atom.cmp_lt_of_ctorIdx_lt hlt
    have hi : a.ctorIdx = b.ctorIdx := by omega
    have hj : b.ctorIdx = c.ctorIdx := by omega
    cases a with
    | symbol x =>
      cases b <;> simp [Atom.ctorIdx] at hi
      cases c <;> simp [Atom.ctorIdx] at hj
      simp only [Atom.cmp] at *
      exact Std.TransCmp.lt_trans hab hbc
    | app h ps =>
      cases b <;> simp [Atom.ctorIdx] at hi
      cases c <;> simp [Atom.ctorIdx] at hj
      simp only [Atom.cmp] at *
      exact Sorting.then_lt_trans Head.cmp_eq_iff hab hbc Head.cmp_lt_trans Poly.cmpList_lt_trans
    | quot p q =>
      cases b <;> simp [Atom.ctorIdx] at hi
      cases c <;> simp [Atom.ctorIdx] at hj
      simp only [Atom.cmp] at *
      exact Sorting.then_lt_trans Poly.cmp_eq_iff hab hbc Poly.cmp_lt_trans Poly.cmp_lt_trans
    | rem p q =>
      cases b <;> simp [Atom.ctorIdx] at hi
      cases c <;> simp [Atom.ctorIdx] at hj
      simp only [Atom.cmp] at *
      exact Sorting.then_lt_trans Poly.cmp_eq_iff hab hbc Poly.cmp_lt_trans Poly.cmp_lt_trans
    | verbatim e =>
      cases b <;> simp [Atom.ctorIdx] at hi
      cases c <;> simp [Atom.ctorIdx] at hj
      simp only [Atom.cmp] at *
      exact Expr.cmp_lt_trans hab hbc

theorem Factor.cmpList_lt_trans : ∀ {fs gs hs : List Factor},
    Factor.cmpList fs gs = .lt → Factor.cmpList gs hs = .lt → Factor.cmpList fs hs = .lt
  | [], [], _, hab, _ => by simp [Factor.cmpList] at hab
  | [], _ :: _, [], _, hbc => by simp [Factor.cmpList] at hbc
  | [], _ :: _, _ :: _, _, _ => by simp [Factor.cmpList]
  | _ :: _, [], _, hab, _ => by simp [Factor.cmpList] at hab
  | _ :: _, _ :: _, [], _, hbc => by simp [Factor.cmpList] at hbc
  | ⟨a, m⟩ :: fs, ⟨b, n⟩ :: gs, ⟨c, k⟩ :: hs, hab, hbc => by
    simp only [Factor.cmpList] at *
    exact Sorting.then_lt_trans Atom.cmp_eq_iff hab hbc Atom.cmp_lt_trans fun hab hbc =>
      Sorting.then_lt_trans (fun _ _ => Std.compare_eq_iff_eq) hab hbc Std.TransCmp.lt_trans
        Factor.cmpList_lt_trans

theorem Monomial.cmp_lt_trans : ∀ {l m n : Monomial},
    l.cmp m = .lt → m.cmp n = .lt → l.cmp n = .lt
  | ⟨fs⟩, ⟨gs⟩, ⟨hs⟩, hab, hbc => by
    simp only [Monomial.cmp] at *
    exact Factor.cmpList_lt_trans hab hbc

theorem Term.cmpList_lt_trans : ∀ {ts us vs : List Term},
    Term.cmpList ts us = .lt → Term.cmpList us vs = .lt → Term.cmpList ts vs = .lt
  | [], [], _, hab, _ => by simp [Term.cmpList] at hab
  | [], _ :: _, [], _, hbc => by simp [Term.cmpList] at hbc
  | [], _ :: _, _ :: _, _, _ => by simp [Term.cmpList]
  | _ :: _, [], _, hab, _ => by simp [Term.cmpList] at hab
  | _ :: _, _ :: _, [], _, hbc => by simp [Term.cmpList] at hbc
  | ⟨l, c⟩ :: ts, ⟨m, d⟩ :: us, ⟨n, e⟩ :: vs, hab, hbc => by
    simp only [Term.cmpList] at *
    exact Sorting.then_lt_trans Monomial.cmp_eq_iff hab hbc Monomial.cmp_lt_trans fun hab hbc =>
      Sorting.then_lt_trans ratCmp_eq_iff hab hbc ratCmp_lt_trans Term.cmpList_lt_trans

theorem Poly.cmp_lt_trans : ∀ {p q r : Poly}, p.cmp q = .lt → q.cmp r = .lt → p.cmp r = .lt
  | ⟨ts⟩, ⟨us⟩, ⟨vs⟩, hab, hbc => by
    simp only [Poly.cmp] at *
    exact Term.cmpList_lt_trans hab hbc

theorem Poly.cmpList_lt_trans : ∀ {ps qs rs : List Poly},
    Poly.cmpList ps qs = .lt → Poly.cmpList qs rs = .lt → Poly.cmpList ps rs = .lt
  | [], [], _, hab, _ => by simp [Poly.cmpList] at hab
  | [], _ :: _, [], _, hbc => by simp [Poly.cmpList] at hbc
  | [], _ :: _, _ :: _, _, _ => by simp [Poly.cmpList]
  | _ :: _, [], _, hab, _ => by simp [Poly.cmpList] at hab
  | _ :: _, _ :: _, [], _, hbc => by simp [Poly.cmpList] at hbc
  | p :: ps, q :: qs, r :: rs, hab, hbc => by
    simp only [Poly.cmpList] at *
    exact Sorting.then_lt_trans Poly.cmp_eq_iff hab hbc Poly.cmp_lt_trans Poly.cmpList_lt_trans
end

instance : Std.TransCmp Atom.cmp :=
  Sorting.transCmp_of_lt_trans Atom.cmp_eq_iff Atom.cmp_swap fun _ _ _ => Atom.cmp_lt_trans

instance : Std.LawfulEqCmp Atom.cmp where
  compare_self := (Atom.cmp_eq_iff _ _).2 rfl
  eq_of_compare := (Atom.cmp_eq_iff _ _).1

instance : Std.TransCmp Monomial.cmp :=
  Sorting.transCmp_of_lt_trans Monomial.cmp_eq_iff Monomial.cmp_swap fun _ _ _ =>
    Monomial.cmp_lt_trans

instance : Std.LawfulEqCmp Monomial.cmp where
  compare_self := (Monomial.cmp_eq_iff _ _).2 rfl
  eq_of_compare := (Monomial.cmp_eq_iff _ _).1

instance : Std.TransCmp Poly.cmp :=
  Sorting.transCmp_of_lt_trans Poly.cmp_eq_iff Poly.cmp_swap fun _ _ _ => Poly.cmp_lt_trans

instance : Std.LawfulEqCmp Poly.cmp where
  compare_self := (Poly.cmp_eq_iff _ _).2 rfl
  eq_of_compare := (Poly.cmp_eq_iff _ _).1

instance : DecidableEq Atom := fun a b => decidable_of_iff _ (Atom.cmp_eq_iff a b)

instance : DecidableEq Monomial := fun a b => decidable_of_iff _ (Monomial.cmp_eq_iff a b)

instance : DecidableEq Poly := fun a b => decidable_of_iff _ (Poly.cmp_eq_iff a b)

end PredicateStrength
