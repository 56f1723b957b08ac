import Mathlib
import PredicateStrength.Proofs.Expr.Traversal
import PredicateStrength.Proofs.Formula.Ordered

/-!
# What conversion makes can be read again

A quotient, a remainder or a tree kept as it stands is in the polynomial of a tree because
conversion did no better with its parts. It does no better with them when it meets them again, so
the atom says so of itself: `Atom.Recurs` for an atom in a term, `Atom.RecursAsProp` for one that is
read as a truth value. An application of an index head has a single argument.

Main statements: `Conversion.everywhere_recurs` and `Conversion.recurs_formula`.
-/
namespace PredicateStrength

open Conversion

/-- An index read has one argument, a function any number. -/
def Head.Takes (ps : List Poly) : Head → Prop
  | .function _ => True
  | .index _ | .indexField _ _ => ∃ p, ps = [p]

/-- Conversion makes the atom of its parts. -/
def Atom.Recurs : Atom → Prop
  | .symbol _ => True
  | .app head ps => head.Takes ps
  | .quot p q => ∀ e, (divide e p q).result = .ok (.ofAtom (.quot p q))
  | .rem p q => ∀ e, (remainder e p q).result = .ok (.ofAtom (.rem p q))
  | .verbatim e => (term e).result = .ok (.ofAtom (.verbatim e))

/-- Conversion makes the atom of its parts where it expects a truth value. -/
def Atom.RecursAsProp : Atom → Prop
  | .symbol _ => True
  | .app head ps => head.Takes ps
  | .quot _ _ | .rem _ _ => False
  | .verbatim e => (formula e).result = .ok (.prop (.verbatim e))

/-- Conversion makes the atoms of their parts. -/
def Poly.Recurs (p : Poly) : Prop := ∀ a ∈ p.atoms, a.Recurs

namespace Poly

variable {p q r : Poly}

/-- Conversion makes every atom of its parts, at any depth. -/
abbrev RecursEverywhere (p : Poly) : Prop := p.Everywhere Recurs

theorem RecursEverywhere.of_atoms (hp : p.RecursEverywhere) (hq : q.RecursEverywhere)
    (atoms : ∀ a ∈ r.atoms, a ∈ p.atoms ∨ a ∈ q.atoms) : r.RecursEverywhere :=
  everywhere_iff.2 ⟨fun a ha => (atoms a ha).elim (hp.here a) (hq.here a),
    fun a ha => (atoms a ha).elim hp.atom hq.atom⟩

theorem RecursEverywhere.of_part (hp : p.RecursEverywhere) (atoms : ∀ a ∈ r.atoms, a ∈ p.atoms) :
    r.RecursEverywhere := hp.of_atoms hp fun a ha => .inl (atoms a ha)

theorem recursEverywhere_ofAtom {a : Atom} (parts : a.Everywhere Recurs) (recurs : a.Recurs) :
    (ofAtom a).RecursEverywhere :=
  everywhere_iff.2 ⟨by simpa [Recurs] using recurs, by simpa using parts⟩

theorem recursEverywhere_of_atoms_eq_nil (none : p.atoms = []) : p.RecursEverywhere :=
  everywhere_iff.2 ⟨by simp [Recurs, none], by simp [none]⟩

theorem recursEverywhere_const (c : Rat) : (const c).RecursEverywhere :=
  recursEverywhere_of_atoms_eq_nil (atoms_const c)

end Poly

namespace Conversion

variable {e : Expr} {p q r : Poly}

theorem recurs_numeral {digits : String} (h : (term (.num digits)).result = .ok r) :
    r.RecursEverywhere := by
  have whole := h
  rw [term, numeral] at h
  split at h <;> cases h
  · exact Poly.recursEverywhere_const _
  · exact Poly.recursEverywhere_ofAtom trivial whole

/-- Sums and products keep nothing as it stands. -/
theorem recurs_fused {o : Operator} (sum : o = .add ∨ o = .mul) (hp : p.RecursEverywhere)
    (hq : q.RecursEverywhere) (h : (arithmetic e o p q).result = .ok r) : r.RecursEverywhere := by
  rcases sum with rfl | rfl
  · cases h
    exact hp.of_atoms hq fun _ => Poly.atoms_add
  · rw [Poly.eq_mul_of_mul? (orOverflow_eq_ok.1 h)]
    exact hp.of_atoms hq fun _ => Poly.atoms_mul

/-- A tree that is kept as it stands is its own atom. -/
theorem Operation.recurs (h : Operation e p q r) (hp : p.Recurs) (hq : q.Recurs)
    (whole : (term e).result = .ok r) : r.Recurs := by
  cases h with
  | sum => exact fun a ha => (Poly.atoms_add ha).elim (hp a) (hq a)
  | difference => exact fun a ha => (Poly.atoms_sub ha).elim (hp a) (hq a)
  | product => exact fun a ha => (Poly.atoms_mul ha).elim (hp a) (hq a)
  | power => exact fun a ha => hp a (Poly.atoms_pow ha)
  | integer | fraction => simp [Poly.Recurs]
  | scaled => exact fun a ha => hp a (Poly.atoms_scale ha)
  | quotient divides | remainder divides => simpa [Poly.Recurs, Atom.Recurs] using divides
  | kept => simpa [Poly.Recurs, Atom.Recurs] using whole

theorem recurs_arithmetic {o : Operator} (hp : p.RecursEverywhere) (hq : q.RecursEverywhere)
    (whole : (term e).result = .ok r) (h : (arithmetic e o p q).result = .ok r) :
    r.RecursEverywhere :=
  have operation := operation_of_arithmetic h
  operation.everywhere hp hq (operation.recurs hp.here hq.here whole)

/-- What an application is converted to: an atom of its arguments, or the tree itself. -/
structure Applies (e : Expr) (a : Atom) : Prop where
  parts : a.Everywhere Poly.Recurs
  shape : (∃ head ps, a = .app head ps ∧ head.Takes ps) ∨ a = .verbatim e

theorem IsApplication.takes {R : Expr → Poly → Prop} {head : Head} {args : List Expr}
    {ps : List Poly} (h : IsApplication e head args) (operands : List.Forall₂ R args ps) :
    head.Takes ps := by
  cases h with
  | call => trivial
  | index | indexField =>
    cases operands with
    | cons _ rest =>
      cases rest
      exact ⟨_, rfl⟩

theorem applies_access {a : Atom} (h : Access (fun _ p => p.RecursEverywhere) e a) :
    Applies e a := by
  cases h with
  | application shape operands =>
    exact ⟨Poly.everywhereAll_iff.2 (forall_right operands fun _ _ _ => id),
      .inl ⟨_, _, rfl, shape.takes operands⟩⟩
  | _ => exact ⟨trivial, .inr rfl⟩

theorem Applies.term {a : Atom} (h : Applies e a)
    (whole : (Conversion.term e).result = .ok (.ofAtom a)) : (Poly.ofAtom a).RecursEverywhere := by
  refine Poly.recursEverywhere_ofAtom h.parts ?_
  rcases h.shape with ⟨head, ps, rfl, takes⟩ | rfl
  · exact takes
  · exact whole

theorem termCases_recurs : TermCases fun _ p => p.RecursEverywhere where
  name _ := Poly.recursEverywhere_ofAtom trivial trivial
  numeral := recurs_numeral
  neg operand := operand.of_part fun _ => Poly.atoms_neg
  access access whole := (applies_access access).term whole
  empty _ := Poly.recursEverywhere_of_atoms_eq_nil Poly.atoms_zero
  joined sum first rest := foldlM_keeps (forall_right rest fun _ _ _ => id) (recurs_fused sum) first
  pair _ left right result whole := recurs_arithmetic left right whole result

/-- The atoms of a tree's polynomial are made of their parts again, at any depth. -/
theorem recurs_term {e : Expr} {p : Poly} (h : (term e).result = .ok p) : p.RecursEverywhere :=
  termCases_recurs.term h

end Conversion

namespace Poly

variable {p q : Poly}

theorem dvd_foldl_gcd {f : Term → Nat} {ts : List Term} {n d : Nat} (start : d ∣ n)
    (all : ∀ t ∈ ts, d ∣ f t) : d ∣ ts.foldl (fun n t => n.gcd (f t)) n := by
  induction ts generalizing n with
  | nil => exact start
  | cons t ts ih =>
    obtain ⟨first, rest⟩ := List.forall_mem_cons.1 all
    exact ih (Nat.dvd_gcd start first) rest

theorem IntegerCoeffs.denominatorLcm (h : p.IntegerCoeffs) : p.denominatorLcm = 1 := by
  have ones : ∀ ts : List Term, (∀ t ∈ ts, t.coeff.den = 1) →
      ts.foldl (fun n t => Nat.lcm n t.coeff.den) 1 = 1 := by
    intro ts dens
    induction ts with
    | nil => rfl
    | cons t ts ih =>
      rw [List.foldl_cons, dens t (.head _), Nat.lcm_one_right]
      exact ih fun u hu => dens u (.tail _ hu)
  exact ones p.terms h

/-- The factor that is taken out has the size of the content and the sign of the first
coefficient. -/
theorem factor_of_primitive? {k : Rat} (hp : p.Ordered) (h : p.primitive? = some (k, q)) :
    (∃ t ts, p.terms = t :: ts ∧ 0 < t.coeff * k⁻¹) ∧
      (k * p.denominatorLcm = p.numeratorGcd ∨ k * p.denominatorLcm = -p.numeratorGcd) := by
  obtain ⟨nonzero, -, -, -⟩ := primitive?_eq_some hp h
  have lcm : (p.denominatorLcm : Rat) ≠ 0 := by exact_mod_cast p.denominatorLcm_pos.ne'
  have content : mkRat p.numeratorGcd p.denominatorLcm * p.denominatorLcm = p.numeratorGcd := by
    rw [Rat.mkRat_eq_div, Int.cast_natCast, div_mul_cancel₀ _ lcm]
  have nonneg : 0 ≤ mkRat p.numeratorGcd p.denominatorLcm := by
    rw [Rat.mkRat_eq_div]
    positivity
  unfold primitive? at h
  split at h
  · cases h
  · next t ts terms =>
    obtain ⟨rfl, -⟩ := Prod.mk.inj (Option.some.inj h)
    refine ⟨⟨t, ts, terms, ?_⟩, ?_⟩
    · have coeff := hp.coeff_ne_zero t (by simp [terms])
      split
      · next negative =>
        rw [if_pos negative, neg_ne_zero] at nonzero
        have positive := lt_of_le_of_ne nonneg nonzero.symm
        rw [inv_neg]
        exact mul_pos_of_neg_of_neg negative (neg_neg_of_pos (inv_pos.2 positive))
      · next other =>
        rw [if_neg other] at nonzero
        have positive := lt_of_le_of_ne nonneg nonzero.symm
        exact mul_pos (lt_of_le_of_ne (not_lt.1 other) coeff.symm) (inv_pos.2 positive)
    · split
      · exact .inr (by rw [neg_mul, content])
      · exact .inl content

/-- The coefficients of a primitive part have no common divisor. -/
theorem numeratorGcd_primitive {k : Rat} (hp : p.Ordered) (h : p.primitive? = some (k, q)) :
    q.numeratorGcd = 1 := by
  obtain ⟨nonzero, rfl, ints, -⟩ := primitive?_eq_some hp h
  obtain ⟨⟨t, ts, terms, -⟩, size⟩ := factor_of_primitive? hp h
  have scaled := terms_scale (inv_ne_zero nonzero) p
  -- a common divisor of the primitive part times the content divides what the content divides
  have divides : (p.scale k⁻¹).numeratorGcd * p.numeratorGcd ∣ p.numeratorGcd := by
    refine dvd_foldl_gcd (dvd_zero _) fun u hu => ?_
    have part : (⟨u.monomial, u.coeff * k⁻¹⟩ : Term) ∈ (p.scale k⁻¹).terms := by
      rw [scaled]
      exact List.mem_map_of_mem hu
    obtain ⟨n, integer⟩ := den_eq_one_iff_exists.1 (ints _ part)
    have common := numeratorGcd_dvd part
    rw [ints.denominatorLcm, Nat.cast_one, mul_one, integer, Rat.num_intCast] at common
    have whole : u.coeff * p.denominatorLcm = n * (k * p.denominatorLcm) := by
      rw [← integer]
      field_simp
    have product : (u.coeff * p.denominatorLcm).num.natAbs = n.natAbs * p.numeratorGcd := by
      rcases size with size | size <;> rw [whole, size]
      · rw [show (n : Rat) * (p.numeratorGcd : Rat) = ((n * p.numeratorGcd : Int) : Rat) by
            push_cast; rfl,
          Rat.num_intCast, Int.natAbs_mul, Int.natAbs_natCast]
      · rw [show (n : Rat) * -(p.numeratorGcd : Rat) = ((n * -p.numeratorGcd : Int) : Rat) by
            push_cast; rfl,
          Rat.num_intCast, Int.natAbs_mul, Int.natAbs_neg, Int.natAbs_natCast]
    rw [product]
    exact Nat.mul_dvd_mul_right (Int.natCast_dvd.1 (by simpa using common)) _
  have first : t ∈ p.terms := by simp [terms]
  have positive := Nat.pos_of_ne_zero (numeratorGcd_ne_zero first (hp.coeff_ne_zero t first))
  have unit : (p.scale k⁻¹).numeratorGcd * p.numeratorGcd ∣ 1 * p.numeratorGcd := by
    rwa [one_mul]
  exact Nat.dvd_one.1 (Nat.dvd_of_mul_dvd_mul_right positive unit)

theorem scale_one (p : Poly) : p.scale 1 = p := by
  obtain ⟨ts⟩ := p
  rw [scale, if_neg one_ne_zero]
  refine congrArg Poly.mk (List.map_id'' (fun t => ?_) ts)
  obtain ⟨m, c⟩ := t
  exact congrArg (Term.mk m) (mul_one c)

/-- The primitive part is its own primitive part. -/
theorem primitive?_primitive {k : Rat} (hp : p.Ordered) (h : p.primitive? = some (k, q)) :
    q.primitive? = some (1, q) := by
  have gcd := numeratorGcd_primitive hp h
  obtain ⟨nonzero, same, ints, -⟩ := primitive?_eq_some hp h
  obtain ⟨⟨t, ts, terms, positive⟩, -⟩ := factor_of_primitive? hp h
  have first : q.terms = ⟨t.monomial, t.coeff * k⁻¹⟩ ::
      ts.map fun t => ⟨t.monomial, t.coeff * k⁻¹⟩ := by
    rw [same, terms_scale (inv_ne_zero nonzero), terms, List.map_cons]
  unfold primitive?
  rw [first]
  dsimp only
  rw [gcd, ints.denominatorLcm, if_neg positive.not_gt]
  rw [show mkRat ((1 : Nat) : Int) 1 = 1 from rfl, inv_one, scale_one]

theorem withoutConstant_withoutConstant (p : Poly) :
    p.withoutConstant.withoutConstant = p.withoutConstant := by
  simp [withoutConstant]

theorem withoutConstant_scale (k : Rat) (p : Poly) :
    (p.scale k).withoutConstant = p.withoutConstant.scale k := by
  unfold scale
  split
  · rfl
  · simp only [withoutConstant, List.filter_map]
    rfl

end Poly

/-- The constraint is what a comparison amounts to, and its tree is one. -/
structure Constraint.IsComparison (c : Constraint) : Prop where
  linear : c.poly.withoutConstant = c.poly
  primitive : c.poly.primitive? = some (1, c.poly)
  comparison : ∃ (o : Operator) (v : Int), o.isRelational = true ∧
    c.toExpr = comparisonExpr o c.poly v ∧ Bound.ofComparison o v = .inr c.bound

/-- The bound of a comparison is that of a comparison with an integer. -/
theorem Bound.exists_comparison {o : Operator} {target : Rat} {b : Bound} (p : Poly)
    (rel : o.isRelational = true) (h : Bound.ofComparison o target = .inr b) :
    ∃ (o' : Operator) (v : Int), o'.isRelational = true ∧
      (Constraint.mk p b).toExpr = Constraint.comparisonExpr o' p v ∧
      Bound.ofComparison o' v = .inr b := by
  have upper (v : Int) : ∃ (o' : Operator) (v' : Int), o'.isRelational = true ∧
      (Constraint.mk p (.range none (some v))).toExpr = Constraint.comparisonExpr o' p v' ∧
      Bound.ofComparison o' v' = .inr (.range none (some v)) :=
    ⟨.le, v, rfl, rfl, by simp [Bound.ofComparison]⟩
  have lower (v : Int) : ∃ (o' : Operator) (v' : Int), o'.isRelational = true ∧
      (Constraint.mk p (.range (some v) none)).toExpr = Constraint.comparisonExpr o' p v' ∧
      Bound.ofComparison o' v' = .inr (.range (some v) none) :=
    ⟨.ge, v, rfl, rfl, by simp [Bound.ofComparison]⟩
  cases o
  case lt | le =>
    cases h
    exact upper _
  case gt | ge =>
    cases h
    exact lower _
  case eq =>
    rw [Bound.ofComparison] at h
    split at h <;> cases h
    exact ⟨.eq, target.num, rfl, by simp [Constraint.toExpr], by simp [Bound.ofComparison]⟩
  case ne =>
    rw [Bound.ofComparison] at h
    split at h <;> cases h
    exact ⟨.ne, target.num, rfl, rfl, by simp [Bound.ofComparison]⟩
  all_goals cases rel

/-- Conversion makes the formula of its parts. -/
inductive Formula.Recurs : Formula → Prop
  | const (b : Bool) : Recurs (.const b)
  | prop {a : Atom} (ordered : a.Everywhere Poly.Ordered) (parts : a.Everywhere Poly.Recurs)
      (recurs : a.RecursAsProp) : Recurs (.prop a)
  | constraint {c : Constraint} (ordered : c.poly.WellFormed) (poly : c.poly.RecursEverywhere)
      (comparison : c.IsComparison) : Recurs (.constraint c)
  | not {f : Formula} (part : f.Recurs) : Recurs (.not f)
  | and {fs : List Formula} (several : 2 ≤ fs.length) (parts : ∀ f ∈ fs, f.Recurs) : Recurs (.and fs)
  | or {fs : List Formula} (several : 2 ≤ fs.length) (parts : ∀ f ∈ fs, f.Recurs) : Recurs (.or fs)

/-- An operator stands between operands. -/
def Expr.Joins : Expr → Prop
  | .op _ args => 2 ≤ args.length
  | _ => True

namespace Conversion

theorem recurs_ofComparison {o : Operator} {p q : Poly} (rel : o.isRelational = true)
    (hp : p.WellFormed) (hq : q.WellFormed) (hp' : p.RecursEverywhere) (hq' : q.RecursEverywhere) :
    (Constraint.ofComparison o p q).Recurs := by
  rw [Constraint.ofComparison]
  split
  · exact .const _
  · next k linear primitive =>
    have ordered := (hp.here.sub hq.here).withoutConstant
    obtain ⟨-, scaled, -, -⟩ := Poly.primitive?_eq_some ordered primitive
    have rel' : (if k < 0 then o.mirrored else o).isRelational = true := by
      split
      · cases o <;> first | rfl | cases rel
      · exact rel
    split
    · exact .const _
    · next bound result =>
      subst scaled
      have atoms (a : Atom) (ha : a ∈ ((p - q).withoutConstant.scale k⁻¹).atoms) :
          a ∈ p.atoms ∨ a ∈ q.atoms :=
        Poly.atoms_sub (Poly.atoms_withoutConstant (Poly.atoms_scale ha))
      refine .constraint (hp.of_atoms hq (ordered.scale _) atoms) (hp'.of_atoms hq' atoms)
        ⟨?_, Poly.primitive?_primitive ordered primitive, Bound.exists_comparison _ rel' result⟩
      rw [Poly.withoutConstant_scale, Poly.withoutConstant_withoutConstant]

theorem recurs_agreement {f g : Formula} (hf : f.Recurs) (hg : g.Recurs) :
    (agreement f g).Recurs := by
  have both : (Formula.and [f, g]).Recurs := .and le_rfl (by simp [hf, hg])
  have neither : (Formula.and [.not f, .not g]).Recurs := .and le_rfl (by simp [hf.not, hg.not])
  exact .or le_rfl (by simp [both, neither])

theorem Applies.formula {e : Expr} {a : Atom} (h : Applies e a)
    (ordered : a.Everywhere Poly.Ordered)
    (whole : (Conversion.formula e).result = .ok (.prop a)) : (Formula.prop a).Recurs := by
  refine .prop ordered h.parts ?_
  rcases h.shape with ⟨head, ps, rfl, takes⟩ | rfl
  · exact takes
  · exact whole

theorem formulaCases_recurs :
    FormulaCases fun e f => e.Everywhere Expr.Joins → f.Recurs where
  name _ _ := .prop trivial trivial trivial
  const b _ := .const b
  not operand joins := .not (operand (joins.part (.head _)))
  access access whole _ := by
    have ordered := everywhere_access (access.imp fun _ _ _ h _ => wellFormed_term h)
      (Expr.numerals_of_forall (fun _ => trivial) _)
    exact (applies_access (access.imp fun _ _ _ => recurs_term)).formula ordered whole
  and operands joins := .and (operands.length_eq ▸ joins.root)
    (forall_right operands fun _ mem _ kept => kept (joins.part mem))
  or operands joins := .or (operands.length_eq ▸ joins.root)
    (forall_right operands fun _ mem _ kept => kept (joins.part mem))
  equality _ _ left right joins := by
    have same := recurs_agreement (left (joins.part (.head _)))
      (right (joins.part (.tail _ (.head _))))
    split
    · exact same
    · exact .not same
  comparison rel left right _ := recurs_ofComparison rel (wellFormed_term left)
    (wellFormed_term right) (recurs_term left) (recurs_term right)

/-- The formula of a tree is made of its parts again. -/
theorem recurs_formula {e : Expr} {f : Formula} (joins : e.Everywhere Expr.Joins)
    (h : (formula e).result = .ok f) : f.Recurs := formulaCases_recurs.formula h joins

end Conversion
end PredicateStrength
