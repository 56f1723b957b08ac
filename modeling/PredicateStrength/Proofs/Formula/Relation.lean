import Mathlib
import PredicateStrength.Proofs.Poly.Ring

/-!
# One key for equal comparisons

The constraint of a comparison depends on the difference of its sides only, and there not on a
factor other than zero, except that a negative one turns the operator around: both sides have the
primitive part in common. So comparisons that are the same up to such changes have the same
constraint.

Main statement: `Constraint.ofComparison_normal`.
-/
namespace PredicateStrength

namespace Poly

theorem constantTerm_scale {p : Poly} (hp : p.Ordered) (c : ℚ) :
    (p.scale c).constantTerm = c * p.constantTerm := by
  rw [constantTerm_eq_valueAt (hp.scale c), constantTerm_eq_valueAt hp, valueAt_scale]

theorem primitive?_eq_none {p : Poly} : p.primitive? = none ↔ p = zero := by
  constructor
  · intro none
    by_contra filled
    obtain ⟨k, q, some⟩ := exists_primitive? filled
    rw [none] at some
    cases some
  · rintro rfl
    rfl

end Poly

namespace Constraint

open PredicateStrength.Poly

variable {o : Operator} {p q p' q' : Poly} {c : ℚ}

/-- The operator between sides that are multiplied by `c`. -/
def turned (c : ℚ) (o : Operator) : Operator := if c < 0 then o.mirrored else o

theorem turned_of_pos (hc : 0 < c) (o : Operator) : turned c o = o := if_neg hc.not_gt

theorem turned_of_neg (hc : c < 0) (o : Operator) : turned c o = o.mirrored := if_pos hc

theorem turned_mul (hc : c ≠ 0) {k : ℚ} (hk : k ≠ 0) (o : Operator) :
    turned (c * k) (turned c o) = turned k o := by
  rcases lt_or_gt_of_ne hc with below | above <;> rcases lt_or_gt_of_ne hk with below' | above'
  · rw [turned_of_pos (mul_pos_of_neg_of_neg below below'), turned_of_neg below,
      turned_of_neg below']
  · rw [turned_of_neg (mul_neg_of_neg_of_pos below above'), turned_of_neg below,
      turned_of_pos above', Operator.mirrored_mirrored]
  · rw [turned_of_neg (mul_neg_of_pos_of_neg above below'), turned_of_pos above,
      turned_of_neg below']
  · rw [turned_of_pos (mul_pos above above'), turned_of_pos above, turned_of_pos above']

theorem comparesToZero_turned (hc : c ≠ 0) (o : Operator) (x : ℚ) :
    comparesToZero (turned c o) (c * x) = comparesToZero o x := by
  have scaled := relate_scale (turned c o) hc x 0
  rw [add_zero, neg_zero, zero_div] at scaled
  rw [comparesToZero_eq, comparesToZero_eq, scaled]
  rcases lt_or_gt_of_ne hc with below | above
  · rw [if_pos below, turned_of_neg below, Operator.mirrored_mirrored]
  · rw [if_neg above.not_gt, turned_of_pos above]

/-- The constraint depends on the multiples of the difference. -/
theorem ofComparison_of_difference (hp : p.Ordered) (hq : q.Ordered) (hc : c ≠ 0)
    (difference : p' - q' = (p - q).scale c) :
    ofComparison (turned c o) p' q' = ofComparison o p q := by
  have ordered := hp.sub hq
  rw [ofComparison, ofComparison, difference, withoutConstant_scale, constantTerm_scale ordered]
  cases parts : (p - q).withoutConstant.primitive? with
  | none =>
    have none : ((p - q).withoutConstant.scale c).primitive? = none := by
      rw [primitive?_eq_none.1 parts]
      exact primitive?_eq_none.2 (by rw [scale, if_neg hc]; rfl)
    rw [none]
    exact congrArg Formula.const (comparesToZero_turned hc o _)
  | some kq =>
    obtain ⟨k, linear⟩ := kq
    obtain ⟨hk, -, -, -⟩ := primitive?_eq_some ordered.withoutConstant parts
    have target : -(c * (p - q).constantTerm) / (c * k) = -(p - q).constantTerm / k := by
      rw [← mul_neg, mul_div_mul_left _ _ hc]
    rw [primitive?_scale ordered.withoutConstant hc parts]
    dsimp only
    have operator : (if c * k < 0 then (turned c o).mirrored else turned c o) =
        if k < 0 then o.mirrored else o := turned_mul hc hk o
    rw [target, operator]

/-- Multiplying both sides keeps the constraint, where a negative factor turns the operator. -/
theorem ofComparison_scale (hp : p.Ordered) (hq : q.Ordered) (hc : c ≠ 0) :
    ofComparison (turned c o) (p.scale c) (q.scale c) = ofComparison o p q := by
  refine ofComparison_of_difference hp hq hc (eq_of_toMvPolynomial ((hp.scale c).sub (hq.scale c))
    ((hp.sub hq).scale c) ?_)
  simp only [toMvPolynomial_sub, toMvPolynomial_scale, mul_sub]

theorem ofComparison_add {t : Poly} (hp : p.Ordered) (hq : q.Ordered) (ht : t.Ordered) :
    ofComparison o (p + t) (q + t) = ofComparison o p q := by
  refine ofComparison_of_difference hp hq one_ne_zero (eq_of_toMvPolynomial
    ((hp.add ht).sub (hq.add ht)) ((hp.sub hq).scale 1) ?_)
  simp only [toMvPolynomial_sub, toMvPolynomial_add, toMvPolynomial_scale]
  rw [MvPolynomial.C_1]
  ring

theorem ofComparison_swap (hp : p.Ordered) (hq : q.Ordered) :
    ofComparison o.mirrored q p = ofComparison o p q :=
  ofComparison_of_difference hp hq (neg_ne_zero.2 one_ne_zero) (sub_swap hp hq)

/-- The constraint is over a primitive polynomial without constant term. -/
theorem isPrimitive_ofComparison (hp : p.Ordered) (hq : q.Ordered) :
    (∃ b, ofComparison o p q = .const b) ∨
      ∃ d : Constraint, ofComparison o p q = .constraint d ∧ d.poly.IsPrimitive ∧
        ∀ t ∈ d.poly.terms, t.monomial ≠ .unit := by
  have ordered := (hp.sub hq).withoutConstant
  rw [ofComparison]
  split
  · exact .inl ⟨_, rfl⟩
  · next k linear parts =>
    split
    · exact .inl ⟨_, rfl⟩
    · refine .inr ⟨_, rfl, isPrimitive_of_primitive? ordered parts, ?_⟩
      obtain ⟨hk, same, -, -⟩ := primitive?_eq_some ordered parts
      intro t mem unit
      rw [same, terms_scale (inv_ne_zero hk)] at mem
      obtain ⟨u, inside, rfl⟩ := List.mem_map.1 mem
      have other := (List.mem_filter.1 inside).2
      change u.monomial = .unit at unit
      rw [unit] at other
      cases other

/-- The constraint of a comparison holds exactly where the comparison does; it is a truth value or
over a primitive polynomial without constant term; and it stays the same if the sides change
places, move by a polynomial or are multiplied by a rational. -/
theorem ofComparison_normal (o : Operator) (rel : o.isRelational = true) (p q : Poly)
    (hp : p.Ordered) (hq : q.Ordered) :
    (∀ V : Valuation, (ofComparison o p q).Holds V ↔ relate o (V.value p) (V.value q) = true) ∧
    ((∃ b, ofComparison o p q = .const b) ∨
      ∃ d : Constraint, ofComparison o p q = .constraint d ∧ d.poly.IsPrimitive ∧
        ∀ t ∈ d.poly.terms, t.monomial ≠ .unit) ∧
    ofComparison o.mirrored q p = ofComparison o p q ∧
    (∀ t : Poly, t.Ordered → ofComparison o (p + t) (q + t) = ofComparison o p q) ∧
    (∀ c : ℚ, 0 < c → ofComparison o (p.scale c) (q.scale c) = ofComparison o p q) ∧
    ∀ c : ℚ, c < 0 → ofComparison o.mirrored (p.scale c) (q.scale c) = ofComparison o p q := by
  refine ⟨fun V => holds_ofComparison rel hp hq, isPrimitive_ofComparison hp hq,
    ofComparison_swap hp hq, fun t ht => ofComparison_add hp hq ht, fun c above => ?_,
    fun c below => ?_⟩
  · have scaled := ofComparison_scale (o := o) hp hq above.ne'
    rwa [turned_of_pos above] at scaled
  · have scaled := ofComparison_scale (o := o) hp hq below.ne
    rwa [turned_of_neg below] at scaled

theorem ofComparison_normal_slopes : slopes.Ordered ∧ (const (3 / 4)).Ordered ∧
    ofComparison .gt (const (3 / 4)) slopes = ofComparison .lt slopes (const (3 / 4)) ∧
    ofComparison .gt (slopes.scale (-6)) ((const (3 / 4)).scale (-6)) =
      ofComparison .lt slopes (const (3 / 4)) := by
  have ordered : slopes.Ordered := ((ordered_ofAtom _).scale _).add ((ordered_ofAtom _).scale _)
  obtain ⟨-, -, swapped, -, -, negative⟩ :=
    ofComparison_normal .lt rfl slopes (const (3 / 4)) ordered (ordered_const _)
  exact ⟨ordered, ordered_const _, swapped, negative (-6) (by norm_num)⟩

end Constraint
end PredicateStrength
