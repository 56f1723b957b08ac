import Mathlib
import PredicateStrength.Proofs.Expr.Canonical
import PredicateStrength.Proofs.Formula.Truth
import PredicateStrength.Proofs.Poly.Content

/-!
# The constraint of a comparison

The difference of the two sides is its constant term plus the content times a primitive
polynomial, which takes integer values. So the comparison bounds that integer by a rational, and
the bound may be rounded inward.

Main statement: the constraint holds exactly where the comparison does
(`Constraint.holds_ofComparison`).
-/
namespace PredicateStrength

namespace Poly

theorem Ordered.withoutConstant {p : Poly} (hp : p.Ordered) : p.withoutConstant.Ordered where
  ascending := by
    have sub : p.withoutConstant.monomials.Sublist p.monomials :=
      (List.filter_sublist (l := p.terms)).map _
    exact hp.ascending.sublist sub
  coeff_ne_zero t ht := hp.coeff_ne_zero t (List.mem_of_mem_filter ht)
  monomial t ht := hp.monomial t (List.mem_of_mem_filter ht)

theorem atoms_withoutConstant {p : Poly} {a : Atom} (h : a ∈ p.withoutConstant.atoms) :
    a ∈ p.atoms := by
  obtain ⟨t, ht, ha⟩ := List.mem_flatMap.1 h
  exact List.mem_flatMap.2 ⟨t, List.mem_of_mem_filter ht, ha⟩

end Poly

theorem comparesToZero_eq (o : Operator) (x : Rat) : comparesToZero o x = relate o x 0 := by
  cases o <;> rfl

theorem Bound.admits_range {lo hi : Option Int} {n : Int} :
    (range lo hi).Admits n ↔ (∀ l ∈ lo, l ≤ n) ∧ ∀ h ∈ hi, n ≤ h := by
  simp [Admits]

/-- The bound admits the integers that compare so with the target. -/
theorem Bound.admits_ofComparison {o : Operator} (rel : o.isRelational = true) (target : Rat)
    (n : Int) :
    (ofComparison o target).elim (· = true) (·.Admits n) ↔ relate o (n : Rat) target = true := by
  have whole : target.den = 1 → (target.num : Rat) = target := (Rat.den_eq_one_iff target).1
  have fraction : target.den ≠ 1 → (n : Rat) ≠ target := by
    rintro den rfl
    exact den rfl
  cases o <;> simp only [Operator.isRelational, Bool.false_eq_true] at rel
  case lt =>
    simp only [ofComparison, relate, Sum.elim_inr, admits_range, Option.mem_def, reduceCtorEq,
      false_imp_iff, implies_true, true_and, Option.some.injEq, forall_eq', decide_eq_true_eq]
    rw [← Rat.lt_ceil_iff]
    omega
  case le => simp [ofComparison, relate, admits_range, ← Rat.le_floor_iff]
  case gt =>
    simp only [ofComparison, relate, Sum.elim_inr, admits_range, Option.mem_def, reduceCtorEq,
      false_imp_iff, implies_true, and_true, Option.some.injEq, forall_eq', decide_eq_true_eq]
    rw [← Rat.floor_lt_iff]
    omega
  case ge => simp [ofComparison, relate, admits_range, ← Rat.ceil_le_iff]
  case eq =>
    by_cases den : target.den = 1
    · have same : (n : Rat) = target ↔ n = target.num := by
        rw [← whole den, Int.cast_inj, Rat.num_intCast]
      simp only [ofComparison, den, if_true, relate, Sum.elim_inr, admits_range, Option.mem_def,
        Option.some.injEq, forall_eq', decide_eq_true_eq, same]
      omega
    · simp [ofComparison, den, relate, fraction den]
  case ne =>
    by_cases den : target.den = 1
    · simp [ofComparison, den, Admits, relate, whole den]
    · simp [ofComparison, den, relate, fraction den]

namespace Constraint

variable {V : Valuation} {p q : Poly}

theorem relate_mul_pos {o : Operator} {k : Rat} (hk : 0 < k) (y : Rat) :
    relate o (k * y) 0 = relate o y 0 := by
  have pos : 0 < k * y ↔ 0 < y := mul_pos_iff_of_pos_left hk
  have nonneg : 0 ≤ k * y ↔ 0 ≤ y := mul_nonneg_iff_of_pos_left hk
  have neg : k * y < 0 ↔ y < 0 := by rw [← not_le, nonneg, not_le]
  have nonpos : k * y ≤ 0 ↔ y ≤ 0 := by rw [← not_lt, pos, not_lt]
  have zero : k * y = 0 ↔ y = 0 := by simp [hk.ne']
  cases o <;> simp only [relate, pos, nonneg, neg, nonpos, zero, ne_eq]

/-- Dividing by a coefficient turns the comparison around if the coefficient is negative. -/
theorem relate_scale (o : Operator) {k : Rat} (hk : k ≠ 0) (x c : Rat) :
    relate o (k * x + c) 0 = relate (if k < 0 then o.mirrored else o) x (-c / k) := by
  rcases lt_or_gt_of_ne hk with negative | positive
  · have shift : relate o (-c / k) x = relate o (-c / k - x) 0 :=
      relate_eq_of_sub_eq o (by rw [sub_zero])
    have product : k * x + c = -k * (-c / k - x) := by
      rw [neg_mul, mul_sub, mul_div_cancel₀ _ hk]
      ring
    rw [if_pos negative, relate_mirrored, shift, product, relate_mul_pos (neg_pos.2 negative)]
  · have shift : relate o x (-c / k) = relate o (x - -c / k) 0 :=
      relate_eq_of_sub_eq o (by rw [sub_zero])
    have product : k * x + c = k * (x - -c / k) := by
      rw [mul_sub, mul_div_cancel₀ _ hk]
      ring
    rw [if_neg positive.not_gt, shift, product, relate_mul_pos positive]

/-- The constraint holds exactly where the comparison does. -/
theorem holds_ofComparison {o : Operator} (rel : o.isRelational = true) (hp : p.Ordered)
    (hq : q.Ordered) :
    (ofComparison o p q).Holds V ↔ relate o (V.value p) (V.value q) = true := by
  have difference : relate o (V.value p) (V.value q) =
      relate o ((p - q).withoutConstant.value V.number + (p - q).constantTerm) 0 := by
    refine (relate_eq_of_sub_eq o ?_).symm
    rw [sub_zero, add_comm, ← Poly.value_eq_constantTerm_add V.number (hp.sub hq)]
    exact (Valuation.value_sub p q)
  rw [difference, ofComparison]
  split
  · next none =>
    have empty : (p - q).withoutConstant.terms = [] := by
      unfold Poly.primitive? at none
      split at none
      · assumption
      · cases none
    rw [Poly.value, empty, Term.sum_nil, zero_add, ← comparesToZero_eq]
    rfl
  · next k linear primitive =>
    have ordered := (hp.sub hq).withoutConstant
    obtain ⟨hk, -, ints, value⟩ := Poly.primitive?_eq_some ordered primitive
    obtain ⟨n, hn⟩ := ints.value_eq_int V.number
    have rel' : (if k < 0 then o.mirrored else o).isRelational = true := by
      split
      · cases o <;> first | rfl | cases rel
      · exact rel
    rw [value, relate_scale o hk, hn, ← Bound.admits_ofComparison rel']
    split
    · next b bound =>
      rw [bound]
      rfl
    · next bound' bound =>
      rw [bound]
      show Bound.Admits bound' (linear.value V.number) ↔ _
      rw [hn]
      rfl

/-- What is constrained is a multiple of the difference without its constant term. -/
theorem leaves_ofComparison {Q : Atom → Prop} {P : Poly → Prop} {o : Operator} (hp : p.Ordered)
    (hq : q.Ordered)
    (h : ∀ k : Rat, ((p - q).withoutConstant.scale k).IntegerCoeffs →
      P ((p - q).withoutConstant.scale k)) : (ofComparison o p q).Leaves Q P := by
  rw [ofComparison]
  split
  · trivial
  · next k linear primitive =>
    obtain ⟨-, rfl, ints, -⟩ := Poly.primitive?_eq_some (hp.sub hq).withoutConstant primitive
    split
    · trivial
    · exact h _ ints

/-- The polynomial of the constraint is in order, has integer coefficients and no new atoms. -/
theorem over_ofComparison {P : Poly → Prop} {o : Operator} (hp : p.Ordered) (hq : q.Ordered)
    (h : ∀ r : Poly, r.Ordered → r.IntegerCoeffs →
      (∀ a ∈ r.atoms, a ∈ p.atoms ∨ a ∈ q.atoms) → P r) : (ofComparison o p q).Over P :=
  Formula.over_iff_leaves.2 (leaves_ofComparison hp hq fun k ints =>
    h _ ((hp.sub hq).withoutConstant.scale k) ints fun _ ha =>
      Poly.atoms_sub (Poly.atoms_withoutConstant (Poly.atoms_scale ha)))

end Constraint
end PredicateStrength
