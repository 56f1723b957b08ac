import Mathlib
import PredicateStrength.Proofs.Poly.Content
import PredicateStrength.Proofs.Formula.Constraint

/-!
# Identities of ordered polynomials

A polynomial in order is determined by its values where every monomial has a value of its own. So
what holds of these values holds of the polynomials: differences change their sign with the order
of the operands, and a constant on one side leaves the linear part as it is.

Main statements: `Poly.eq_of_valueAt`, `Poly.sub_swap` and `Poly.primitive?_neg`.
-/
namespace PredicateStrength.Poly

variable {p q : Poly}

/-- The values that pick out the coefficient of a monomial. -/
def indicator (m n : Monomial) : Rat := if n = m then 1 else 0

theorem sumAt_indicator_of_lt {m : Monomial} {ts : List Term}
    (below : ∀ t ∈ ts, m.cmp t.monomial = .lt) : Term.sumAt (indicator m) ts = 0 := by
  induction ts with
  | nil => rfl
  | cons t ts ih =>
    have other : t.monomial ≠ m := by
      rintro rfl
      have self := below t (by simp)
      rw [(Monomial.cmp_eq_iff _ _).2 rfl] at self
      cases self
    rw [Term.sumAt_cons, ih fun u hu => below u (List.mem_cons_of_mem _ hu), indicator,
      if_neg other, mul_zero, add_zero]

/-- The first monomial has the coefficient of its term. -/
theorem sumAt_indicator_cons {t : Term} {ts : List Term}
    (below : ∀ u ∈ ts, t.monomial.cmp u.monomial = .lt) :
    Term.sumAt (indicator t.monomial) (t :: ts) = t.coeff := by
  rw [Term.sumAt_cons, sumAt_indicator_of_lt below, indicator, if_pos rfl, mul_one, add_zero]

/-- Polynomials in order that have the same values are equal. -/
theorem eq_of_valueAt (hp : p.Ordered) (hq : q.Ordered)
    (same : ∀ w, p.valueAt w = q.valueAt w) : p = q := by
  obtain ⟨ts⟩ := p
  obtain ⟨us⟩ := q
  simp only [valueAt] at same
  induction ts generalizing us with
  | nil =>
    cases us with
    | nil => rfl
    | cons u us =>
      obtain ⟨⟨coeff, -, below⟩, -⟩ := Ordered.cons_iff.1 hq
      have zero := same (indicator u.monomial)
      rw [sumAt_indicator_cons below] at zero
      exact absurd zero.symm coeff
  | cons t ts ih =>
    obtain ⟨⟨coeff, -, below⟩, rest⟩ := Ordered.cons_iff.1 hp
    cases us with
    | nil =>
      have zero := same (indicator t.monomial)
      rw [sumAt_indicator_cons below] at zero
      exact absurd zero coeff
    | cons u us =>
      obtain ⟨⟨coeff', -, below'⟩, rest'⟩ := Ordered.cons_iff.1 hq
      have atFirst := same (indicator t.monomial)
      have atSecond := same (indicator u.monomial)
      rw [sumAt_indicator_cons below] at atFirst
      rw [sumAt_indicator_cons below'] at atSecond
      cases order : t.monomial.cmp u.monomial with
      | lt =>
        rw [sumAt_indicator_of_lt fun v hv => ?_] at atFirst
        · exact absurd atFirst coeff
        · rcases List.mem_cons.1 hv with rfl | hv
          · exact order
          · exact Monomial.cmp_lt_trans order (below' v hv)
      | gt =>
        have order' : u.monomial.cmp t.monomial = .lt := by
          rw [← Monomial.cmp_swap, order]
          rfl
        rw [sumAt_indicator_of_lt fun v hv => ?_] at atSecond
        · exact absurd atSecond.symm coeff'
        · rcases List.mem_cons.1 hv with rfl | hv
          · exact order'
          · exact Monomial.cmp_lt_trans order' (below v hv)
      | eq =>
        obtain ⟨m, c⟩ := t
        obtain ⟨n, d⟩ := u
        have monomials : m = n := (Monomial.cmp_eq_iff _ _).1 order
        subst monomials
        rw [sumAt_indicator_cons below'] at atFirst
        have coeffs : c = d := atFirst
        subst coeffs
        have tails := ih rest us rest' fun w => by
          have whole := same w
          rw [Term.sumAt_cons, Term.sumAt_cons] at whole
          exact add_left_cancel whole
        rw [Poly.mk.inj tails]

theorem valueAt_neg (w : Monomial → Rat) (p : Poly) : (-p).valueAt w = -p.valueAt w := by
  show (p.scale (-1)).valueAt w = _
  rw [valueAt_scale, neg_one_mul]

theorem sub_swap (hp : p.Ordered) (hq : q.Ordered) : q - p = -(p - q) :=
  eq_of_valueAt (hq.sub hp) (hp.sub hq).neg fun w => by
    rw [valueAt_neg, valueAt_sub, valueAt_sub, neg_sub]

theorem valueAt_withoutConstant_congr {w w' : Monomial → Rat}
    (same : ∀ m : Monomial, m.isUnit = false → w m = w' m) (p : Poly) :
    p.withoutConstant.valueAt w = p.withoutConstant.valueAt w' := by
  rw [valueAt, valueAt, Term.sumAt, Term.sumAt]
  refine congrArg List.sum (List.map_congr_left fun t ht => ?_)
  have unit := (List.mem_filter.1 ht).2
  rw [same t.monomial (by simpa using unit)]

theorem constantTerm_eq_valueAt (hp : p.Ordered) :
    p.constantTerm = p.valueAt (indicator .unit) := by
  have linear : p.withoutConstant.valueAt (indicator .unit) = 0 := by
    have elsewhere : ∀ m : Monomial, m.isUnit = false → indicator .unit m = 0 := by
      intro m unit
      rw [indicator, if_neg]
      rintro rfl
      cases unit
    rw [valueAt_withoutConstant_congr elsewhere, valueAt, Term.sumAt]
    simp
  rw [valueAt_eq_constantTerm_add (by simp [indicator]) hp, linear, add_zero]

theorem constantTerm_sub_const (hp : p.Ordered) (c : Rat) :
    (p - const c).constantTerm = p.constantTerm - c := by
  rw [constantTerm_eq_valueAt (hp.sub (ordered_const c)), constantTerm_eq_valueAt hp, valueAt_sub,
    valueAt_const _ (by simp [indicator])]

theorem withoutConstant_sub_const (hp : p.Ordered) (c : Rat) :
    (p - const c).withoutConstant = p.withoutConstant := by
  have ordered := hp.sub (ordered_const c)
  refine eq_of_valueAt ordered.withoutConstant hp.withoutConstant fun w => ?_
  -- with the value one for the unit, both are the whole less its constant term
  let w' (m : Monomial) : Rat := if m.isUnit then 1 else w m
  have agree : ∀ m : Monomial, m.isUnit = false → w m = w' m := fun m unit => by simp [w', unit]
  have one : w' .unit = 1 := rfl
  rw [valueAt_withoutConstant_congr agree, valueAt_withoutConstant_congr agree p]
  have whole := valueAt_eq_constantTerm_add one ordered
  rw [constantTerm_sub_const hp, valueAt_sub, valueAt_const _ one,
    valueAt_eq_constantTerm_add one hp] at whole
  linarith

theorem terms_neg (p : Poly) : (-p).terms = p.terms.map fun t => ⟨t.monomial, t.coeff * -1⟩ :=
  terms_scale (by norm_num) p

theorem withoutConstant_neg (p : Poly) : (-p).withoutConstant = -p.withoutConstant := by
  have sides : (-p).withoutConstant.terms = (-p.withoutConstant).terms := by
    rw [terms_neg, withoutConstant, withoutConstant, terms_neg, List.filter_map]
    rfl
  exact congrArg Poly.mk sides

theorem constantTerm_neg (hp : p.Ordered) : (-p).constantTerm = -p.constantTerm := by
  rw [constantTerm_eq_valueAt hp.neg, constantTerm_eq_valueAt hp, valueAt_neg]

theorem denominatorLcm_neg (p : Poly) : (-p).denominatorLcm = p.denominatorLcm := by
  rw [denominatorLcm, denominatorLcm, terms_neg, List.foldl_map]
  simp

theorem numeratorGcd_neg (p : Poly) : (-p).numeratorGcd = p.numeratorGcd := by
  rw [numeratorGcd, numeratorGcd, terms_neg, List.foldl_map, denominatorLcm_neg]
  simp

theorem scale_neg_neg (p : Poly) (k : Rat) : (-p).scale (-k) = p.scale k := by
  rw [scale, scale]
  by_cases zero : k = 0
  · rw [if_pos zero, if_pos (neg_eq_zero.2 zero)]
  · rw [if_neg zero, if_neg (neg_ne_zero.2 zero), terms_neg, List.map_map]
    simp

/-- A polynomial and its negative have the same primitive part. -/
theorem primitive?_neg (hp : p.Ordered) :
    (-p).primitive? = p.primitive?.map fun kq => (-kq.1, kq.2) := by
  have negated := terms_neg p
  unfold primitive?
  cases terms : p.terms with
  | nil =>
    rw [terms] at negated
    rw [negated]
    rfl
  | cons t ts =>
    rw [terms, List.map_cons] at negated
    rw [negated, numeratorGcd_neg, denominatorLcm_neg]
    dsimp only [Option.map_some]
    generalize mkRat p.numeratorGcd p.denominatorLcm = content
    have coeff := hp.coeff_ne_zero t (by simp [terms])
    have sign : (if t.coeff * -1 < 0 then -content else content) =
        -(if t.coeff < 0 then -content else content) := by
      rcases lt_or_gt_of_ne coeff with negative | positive
      · rw [if_pos negative, if_neg (by linarith), neg_neg]
      · rw [if_neg positive.not_gt, if_pos (by linarith)]
    rw [sign, inv_neg, scale_neg_neg]

end PredicateStrength.Poly
