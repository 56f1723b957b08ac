import PredicateStrength.Expr.Basic
import PredicateStrength.Sorting

/-!
The order of trees that canonical forms sort by: first the kind of node, in the order of the
constructors, then the parts from left to right; lists compare element by element, a proper
beginning first.

Main statement: the order is total and tells different trees apart, so trees have decidable
equality and sorting them has one result.
-/
namespace PredicateStrength.Expr

mutual
/-- Three-way comparison of trees. -/
def cmp : Expr → Expr → Ordering
  | .ident a, .ident b => compare a b
  | .num a, .num b => compare a b
  | .bool a, .bool b => compare a b
  | .not a, .not b => cmp a b
  | .neg a, .neg b => cmp a b
  | .op o as, .op p bs => (compare o.ctorIdx p.ctorIdx).then (cmpList as bs)
  | .call f as, .call g bs => (cmp f g).then (cmpList as bs)
  | .index a i, .index b j => (cmp a b).then (cmp i j)
  | .member a f, .member b g => (cmp a b).then (compare f g)
  | a, b => compare a.ctorIdx b.ctorIdx

/-- Lists of trees compare element by element. -/
def cmpList : List Expr → List Expr → Ordering
  | [], [] => .eq
  | [], _ :: _ => .lt
  | _ :: _, [] => .gt
  | a :: as, b :: bs => (cmp a b).then (cmpList as bs)
end

private theorem operator_eq_of_ctorIdx {o p : Operator} (h : o.ctorIdx = p.ctorIdx) : o = p := by
  revert h; cases o <;> cases p <;> decide

mutual
theorem cmp_eq_iff : ∀ a b : Expr, cmp a b = .eq ↔ a = b
  | .ident _, b => by cases b <;> simp [cmp, Expr.ctorIdx]
  | .num _, b => by cases b <;> simp [cmp, Expr.ctorIdx]
  | .bool _, b => by cases b <;> simp [cmp, Expr.ctorIdx]
  | .not a, b => by cases b <;> simp [cmp, Expr.ctorIdx, cmp_eq_iff a]
  | .neg a, b => by cases b <;> simp [cmp, Expr.ctorIdx, cmp_eq_iff a]
  | .op o as, b => by
    cases b <;> simp [cmp, Expr.ctorIdx, Ordering.then_eq_eq,
      cmpList_eq_iff as]
    intro _
    exact ⟨operator_eq_of_ctorIdx, fun h => h ▸ rfl⟩
  | .call f as, b => by
    cases b <;> simp [cmp, Expr.ctorIdx, Ordering.then_eq_eq,
      cmpList_eq_iff as, cmp_eq_iff f]
  | .index a i, b => by
    cases b <;> simp [cmp, Expr.ctorIdx, Ordering.then_eq_eq,
      cmp_eq_iff a, cmp_eq_iff i]
  | .member a _, b => by
    cases b <;> simp [cmp, Expr.ctorIdx, Ordering.then_eq_eq,
      cmp_eq_iff a]

theorem cmpList_eq_iff : ∀ as bs : List Expr, cmpList as bs = .eq ↔ as = bs
  | [], bs => by cases bs <;> simp [cmpList]
  | a :: as, bs => by
    cases bs <;> simp [cmpList, Ordering.then_eq_eq, cmp_eq_iff a, cmpList_eq_iff as]
end

mutual
theorem cmp_swap : ∀ a b : Expr, (cmp a b).swap = cmp b a
  | .ident _, b => by cases b <;> simp [cmp, Expr.ctorIdx, ← Std.OrientedOrd.eq_swap]
  | .num _, b => by cases b <;> simp [cmp, Expr.ctorIdx, ← Std.OrientedOrd.eq_swap]
  | .bool _, b => by cases b <;> simp [cmp, Expr.ctorIdx, ← Std.OrientedOrd.eq_swap]
  | .not a, b => by cases b <;> simp [cmp, Expr.ctorIdx, ← Std.OrientedOrd.eq_swap, cmp_swap a]
  | .neg a, b => by cases b <;> simp [cmp, Expr.ctorIdx, ← Std.OrientedOrd.eq_swap, cmp_swap a]
  | .op o as, b => by
    cases b <;> simp [cmp, Expr.ctorIdx, ← Std.OrientedOrd.eq_swap, Ordering.swap_then,
      cmpList_swap as]
  | .call f as, b => by
    cases b <;> simp [cmp, Expr.ctorIdx, ← Std.OrientedOrd.eq_swap, Ordering.swap_then,
      cmp_swap f, cmpList_swap as]
  | .index a i, b => by
    cases b <;> simp [cmp, Expr.ctorIdx, ← Std.OrientedOrd.eq_swap, Ordering.swap_then,
      cmp_swap a, cmp_swap i]
  | .member a _, b => by
    cases b <;> simp [cmp, Expr.ctorIdx, ← Std.OrientedOrd.eq_swap, Ordering.swap_then,
      cmp_swap a]

theorem cmpList_swap : ∀ as bs : List Expr, (cmpList as bs).swap = cmpList bs as
  | [], bs => by cases bs <;> simp [cmpList]
  | a :: as, bs => by cases bs <;> simp [cmpList, Ordering.swap_then, cmp_swap a, cmpList_swap as]
end

theorem ctorIdx_le_of_cmp_lt {a b : Expr} (h : cmp a b = .lt) : a.ctorIdx ≤ b.ctorIdx := by
  cases a <;> cases b <;> simp_all [cmp, Expr.ctorIdx, Nat.compare_eq_lt]

theorem cmp_lt_of_ctorIdx_lt {a b : Expr} (h : a.ctorIdx < b.ctorIdx) : cmp a b = .lt := by
  cases a <;> cases b <;> simp_all [cmp, Expr.ctorIdx, Nat.compare_eq_lt]

mutual
theorem cmp_lt_trans : ∀ {a b c : Expr}, cmp a b = .lt → cmp b c = .lt → cmp a c = .lt
  | a, b, c, hab, hbc => by
    have hi := ctorIdx_le_of_cmp_lt hab
    have hj := ctorIdx_le_of_cmp_lt hbc
    rcases Nat.lt_or_ge a.ctorIdx c.ctorIdx with hlt | hge
    · exact cmp_lt_of_ctorIdx_lt hlt
    have hi : a.ctorIdx = b.ctorIdx := by omega
    have hj : b.ctorIdx = c.ctorIdx := by omega
    cases a with
    | ident x =>
      cases b <;> simp [Expr.ctorIdx] at hi
      cases c <;> simp [Expr.ctorIdx] at hj
      simp only [cmp] at *
      exact Std.TransCmp.lt_trans hab hbc
    | num x =>
      cases b <;> simp [Expr.ctorIdx] at hi
      cases c <;> simp [Expr.ctorIdx] at hj
      simp only [cmp] at *
      exact Std.TransCmp.lt_trans hab hbc
    | bool x =>
      cases b <;> simp [Expr.ctorIdx] at hi
      cases c <;> simp [Expr.ctorIdx] at hj
      simp only [cmp] at *
      exact Std.TransCmp.lt_trans hab hbc
    | not x =>
      cases b <;> simp [Expr.ctorIdx] at hi
      cases c <;> simp [Expr.ctorIdx] at hj
      simp only [cmp] at *
      exact cmp_lt_trans hab hbc
    | neg x =>
      cases b <;> simp [Expr.ctorIdx] at hi
      cases c <;> simp [Expr.ctorIdx] at hj
      simp only [cmp] at *
      exact cmp_lt_trans hab hbc
    | op o as =>
      cases b <;> simp [Expr.ctorIdx] at hi
      cases c <;> simp [Expr.ctorIdx] at hj
      simp only [cmp] at *
      exact Sorting.then_lt_trans (fun _ _ => Std.compare_eq_iff_eq) hab hbc
        Std.TransCmp.lt_trans cmpList_lt_trans
    | call f as =>
      cases b <;> simp [Expr.ctorIdx] at hi
      cases c <;> simp [Expr.ctorIdx] at hj
      simp only [cmp] at *
      exact Sorting.then_lt_trans cmp_eq_iff hab hbc cmp_lt_trans cmpList_lt_trans
    | index x i =>
      cases b <;> simp [Expr.ctorIdx] at hi
      cases c <;> simp [Expr.ctorIdx] at hj
      simp only [cmp] at *
      exact Sorting.then_lt_trans cmp_eq_iff hab hbc cmp_lt_trans cmp_lt_trans
    | member x f =>
      cases b <;> simp [Expr.ctorIdx] at hi
      cases c <;> simp [Expr.ctorIdx] at hj
      simp only [cmp] at *
      exact Sorting.then_lt_trans cmp_eq_iff hab hbc cmp_lt_trans Std.TransCmp.lt_trans

theorem cmpList_lt_trans : ∀ {as bs cs : List Expr},
    cmpList as bs = .lt → cmpList bs cs = .lt → cmpList as cs = .lt
  | [], [], _, hab, _ => by simp [cmpList] at hab
  | [], _ :: _, [], _, hbc => by simp [cmpList] at hbc
  | [], _ :: _, _ :: _, _, _ => rfl
  | _ :: _, [], _, hab, _ => by simp [cmpList] at hab
  | _ :: _, _ :: _, [], _, hbc => by simp [cmpList] at hbc
  | _ :: _, _ :: _, _ :: _, hab, hbc => by
    simp only [cmpList] at *
    exact Sorting.then_lt_trans cmp_eq_iff hab hbc cmp_lt_trans cmpList_lt_trans
end

instance : Std.TransCmp cmp :=
  Sorting.transCmp_of_lt_trans cmp_eq_iff cmp_swap fun _ _ _ => cmp_lt_trans

instance : Std.LawfulEqCmp cmp where
  compare_self := (cmp_eq_iff _ _).2 rfl
  eq_of_compare := (cmp_eq_iff _ _).1

instance : Ord Expr := ⟨cmp⟩

instance : DecidableEq Expr := fun a b => decidable_of_iff _ (cmp_eq_iff a b)

/-- Operands in canonical order. -/
def sorted (es : List Expr) : List Expr := Sorting.sort cmp es

end PredicateStrength.Expr
