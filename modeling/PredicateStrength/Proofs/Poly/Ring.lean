import Mathlib
import PredicateStrength.Proofs.Formula.Converted
import PredicateStrength.Proofs.Poly.Identity

/-!
# The polynomial ring

A polynomial stands for one over the rationals whose indeterminates are the atoms
(`Poly.toMvPolynomial`). Where it is in order, the factors of a monomial can be read off its
degrees (`Monomial.factors_eq_map`) and the first coefficient off the polynomial, so polynomials
in order that stand for the same one are equal.

A polynomial over the rationals is determined by its values at integers. So the operations are those
of the ring because they are those of the values. The primitive part is determined as well: no other
multiple of it has coprime integer coefficients, the first of them positive
(`Poly.IsPrimitive.eq_one`).

Main statement: `Poly.ring_of_built`.
-/
namespace PredicateStrength

open MvPolynomial

namespace Monomial

/-- The exponents of the atoms. -/
noncomputable def degrees (m : Monomial) : Atom →₀ ℕ :=
  (m.factors.map fun f => Finsupp.single f.atom f.exponent).sum

variable {m n : Monomial} {fs : List Factor}

theorem sum_single_eq_zero {a : Atom} (absent : a ∉ fs.map Factor.atom) :
    (fs.map fun f => Finsupp.single f.atom f.exponent).sum a = 0 := by
  induction fs with
  | nil => rfl
  | cons f fs ih =>
    obtain ⟨other, rest⟩ := not_or.1 (mt List.mem_cons.2 absent)
    rw [List.map_cons, List.sum_cons, Finsupp.add_apply, ih rest,
      Finsupp.single_eq_of_ne other, add_zero]

theorem sum_single_of_mem (distinct : (fs.map Factor.atom).Nodup) {f : Factor} (mem : f ∈ fs) :
    (fs.map fun f => Finsupp.single f.atom f.exponent).sum f.atom = f.exponent := by
  induction fs with
  | nil => cases mem
  | cons g fs ih =>
    obtain ⟨fresh, rest⟩ := List.nodup_cons.1 distinct
    rw [List.map_cons, List.sum_cons, Finsupp.add_apply]
    rcases List.mem_cons.1 mem with rfl | mem
    · rw [sum_single_eq_zero fresh, Finsupp.single_eq_same, add_zero]
    · have other : f.atom ≠ g.atom := fun same => fresh (same ▸ List.mem_map_of_mem mem)
      rw [ih rest mem, Finsupp.single_eq_of_ne other, zero_add]

theorem degrees_atom (h : m.Ordered) {f : Factor} (mem : f ∈ m.factors) :
    m.degrees f.atom = f.exponent :=
  sum_single_of_mem (h.ascending.nodup Atom.cmp) mem

theorem mem_atoms_iff (h : m.Ordered) {a : Atom} : a ∈ m.atoms ↔ m.degrees a ≠ 0 := by
  constructor
  · intro mem
    obtain ⟨f, factor, rfl⟩ := List.mem_map.1 mem
    rw [degrees_atom h factor]
    exact (h.exponent_pos f factor).ne'
  · intro occurs
    by_contra absent
    exact occurs (sum_single_eq_zero absent)

theorem factors_eq_map (h : m.Ordered) : m.factors = m.atoms.map fun a => ⟨a, m.degrees a⟩ := by
  rw [atoms, List.map_map]
  refine (List.map_id' _).symm.trans (List.map_congr_left fun f mem => ?_)
  obtain ⟨a, n⟩ := f
  rw [Function.comp_apply, degrees_atom h mem]

/-- Monomials in order are told apart by their degrees. -/
theorem eq_of_degrees (hm : m.Ordered) (hn : n.Ordered) (same : m.degrees = n.degrees) :
    m = n := by
  have atoms : m.atoms = n.atoms := hm.ascending.eq_of_mem_iff Atom.cmp hn.ascending fun a => by
    rw [mem_atoms_iff hm, mem_atoms_iff hn, same]
  have factors : m.factors = n.factors := by
    rw [factors_eq_map hm, factors_eq_map hn, atoms, same]
  obtain ⟨fs⟩ := m
  obtain ⟨gs⟩ := n
  exact congrArg mk factors

/-- The product of the powers of the indeterminates. -/
noncomputable def toMvPolynomial (m : Monomial) : MvPolynomial Atom ℚ :=
  (m.factors.map fun f => X f.atom ^ f.exponent).prod

theorem toMvPolynomial_eq_monomial (m : Monomial) :
    m.toMvPolynomial = monomial m.degrees 1 := by
  obtain ⟨fs⟩ := m
  rw [toMvPolynomial, degrees]
  induction fs with
  | nil => rfl
  | cons f fs ih =>
    rw [List.map_cons, List.prod_cons, ih, List.map_cons, List.sum_cons, X_pow_eq_monomial,
      monomial_mul, one_mul]

end Monomial

namespace Poly

variable {p q r : Poly}

/-- The polynomial with the atoms as indeterminates. -/
noncomputable def toMvPolynomial (p : Poly) : MvPolynomial Atom ℚ :=
  (p.terms.map fun t => C t.coeff * t.monomial.toMvPolynomial).sum

theorem eval_toMvPolynomial (v : Atom → Int) (p : Poly) :
    eval (fun a => (v a : ℚ)) p.toMvPolynomial = p.value v := by
  have monomial (m : Monomial) : eval (fun a => (v a : ℚ)) m.toMvPolynomial = (m.value v : ℚ) := by
    rw [Monomial.toMvPolynomial, map_list_prod, List.map_map, Monomial.value, Int.cast_list_prod,
      List.map_map]
    simp [Function.comp_def]
  rw [toMvPolynomial, map_list_sum, List.map_map, value, Term.sum]
  simp [Function.comp_def, monomial]

/-- A polynomial over the rationals is determined by its values at integers. -/
theorem toMvPolynomial_eq_of_value {P : MvPolynomial Atom ℚ}
    (same : ∀ v : Atom → Int, p.value v = eval (fun a => (v a : ℚ)) P) :
    p.toMvPolynomial = P := by
  refine funext_set (fun _ => Set.range (Int.cast : Int → ℚ))
    (fun _ => Set.infinite_range_of_injective Int.cast_injective) fun x integers => ?_
  choose v hv using fun a => integers a trivial
  obtain rfl : (fun a => (v a : ℚ)) = x := funext hv
  rw [eval_toMvPolynomial, same]

theorem toMvPolynomial_const (c : ℚ) : (const c).toMvPolynomial = C c :=
  toMvPolynomial_eq_of_value fun v => by simp

theorem toMvPolynomial_ofAtom (a : Atom) : (ofAtom a).toMvPolynomial = X a :=
  toMvPolynomial_eq_of_value fun v => by simp

theorem toMvPolynomial_add (p q : Poly) :
    (p + q).toMvPolynomial = p.toMvPolynomial + q.toMvPolynomial :=
  toMvPolynomial_eq_of_value fun v => by simp [eval_toMvPolynomial]

theorem toMvPolynomial_sub (p q : Poly) :
    (p - q).toMvPolynomial = p.toMvPolynomial - q.toMvPolynomial :=
  toMvPolynomial_eq_of_value fun v => by simp [eval_toMvPolynomial]

theorem toMvPolynomial_neg (p : Poly) : (-p).toMvPolynomial = -p.toMvPolynomial :=
  toMvPolynomial_eq_of_value fun v => by simp [eval_toMvPolynomial]

theorem toMvPolynomial_mul (p q : Poly) :
    (p * q).toMvPolynomial = p.toMvPolynomial * q.toMvPolynomial :=
  toMvPolynomial_eq_of_value fun v => by simp [eval_toMvPolynomial]

theorem toMvPolynomial_scale (k : ℚ) (p : Poly) :
    (p.scale k).toMvPolynomial = C k * p.toMvPolynomial :=
  toMvPolynomial_eq_of_value fun v => by simp [eval_toMvPolynomial]

theorem toMvPolynomial_pow (p : Poly) (n : ℕ) :
    (p.pow n).toMvPolynomial = p.toMvPolynomial ^ n :=
  toMvPolynomial_eq_of_value fun v => by simp [eval_toMvPolynomial]

theorem coeff_toMvPolynomial (s : Atom →₀ ℕ) (p : Poly) :
    p.toMvPolynomial.coeff s =
      (p.terms.map fun t => if t.monomial.degrees = s then t.coeff else 0).sum := by
  obtain ⟨ts⟩ := p
  rw [toMvPolynomial]
  induction ts with
  | nil => rfl
  | cons t ts ih =>
    rw [List.map_cons, List.sum_cons, coeff_add, ih, List.map_cons, List.sum_cons, coeff_C_mul,
      Monomial.toMvPolynomial_eq_monomial, coeff_monomial, mul_ite, mul_one, mul_zero]

/-- The first monomial of a polynomial in order has the coefficient of its term. -/
theorem coeff_first {t : Term} {ts : List Term} (h : Ordered ⟨t :: ts⟩) :
    (Poly.mk (t :: ts)).toMvPolynomial.coeff t.monomial.degrees = t.coeff := by
  obtain ⟨⟨-, monomial, below⟩, rest⟩ := Ordered.cons_iff.1 h
  have others : ts.map (fun u => if u.monomial.degrees = t.monomial.degrees then u.coeff else 0) =
      ts.map fun _ => 0 := by
    refine List.map_congr_left fun u mem => if_neg fun same => ?_
    have equal := Monomial.eq_of_degrees (rest.monomial u mem) monomial same
    have less := below u mem
    rw [equal, (Monomial.cmp_eq_iff _ _).2 rfl] at less
    cases less
  rw [coeff_toMvPolynomial, List.map_cons, List.sum_cons, if_pos rfl, others]
  simp

theorem eq_zero_of_toMvPolynomial (hp : p.Ordered) (h : p.toMvPolynomial = 0) : p = zero := by
  obtain ⟨ts⟩ := p
  cases ts with
  | nil => rfl
  | cons t ts =>
    have coeff := coeff_first hp
    rw [h, coeff_zero] at coeff
    exact absurd coeff.symm (hp.coeff_ne_zero t (.head _))

/-- Polynomials in order that stand for the same polynomial are equal. -/
theorem eq_of_toMvPolynomial (hp : p.Ordered) (hq : q.Ordered)
    (same : p.toMvPolynomial = q.toMvPolynomial) : p = q := by
  have difference : p - q = zero := eq_zero_of_toMvPolynomial (hp.sub hq) (by
    rw [toMvPolynomial_sub, same, sub_self])
  refine eq_of_valueAt hp hq fun w => sub_eq_zero.1 ?_
  rw [← valueAt_sub, difference]
  rfl

/-- What is left without the constant term has no constant term. -/
theorem value_zero_withoutConstant (hp : p.Ordered) :
    p.withoutConstant.value (fun _ => 0) = 0 := by
  rw [value, Term.sum]
  refine List.sum_eq_zero fun x mem => ?_
  obtain ⟨t, term, rfl⟩ := List.mem_map.1 mem
  obtain ⟨term, unit⟩ := List.mem_filter.1 term
  obtain ⟨fs, c⟩ := t
  have monomial := hp.monomial _ term
  obtain ⟨_ | ⟨f, fs⟩⟩ := fs
  · cases unit
  · have vanishes : (0 : Int) ^ f.exponent = 0 :=
      zero_pow (monomial.exponent_pos f (.head _)).ne'
    simp [Monomial.value, vanishes]

theorem toMvPolynomial_withoutConstant (hp : p.Ordered) :
    p.withoutConstant.toMvPolynomial =
      p.toMvPolynomial - C (constantCoeff p.toMvPolynomial) := by
  have constant : constantCoeff p.toMvPolynomial = p.constantTerm := by
    have origin := eval_toMvPolynomial (fun _ => 0) p
    rw [value_eq_constantTerm_add _ hp, value_zero_withoutConstant hp, add_zero] at origin
    rw [← origin, constantCoeff_eq, Int.cast_zero]
    exact (congrFun (congrArg DFunLike.coe eval_zero) _).symm
  refine toMvPolynomial_eq_of_value fun v => ?_
  rw [map_sub, eval_C, eval_toMvPolynomial, constant, value_eq_constantTerm_add v hp]
  ring

/-- Coprime integer coefficients, and the first of them positive. -/
structure IsPrimitive (p : Poly) : Prop where
  integer : p.IntegerCoeffs
  coprime : ∀ d : ℕ, (∀ t ∈ p.terms, (d : ℤ) ∣ t.coeff.num) → d = 1
  first_pos : ∃ t ts, p.terms = t :: ts ∧ 0 < t.coeff

variable {k c : ℚ}

theorem scale_scale (hp : p.Ordered) (k c : ℚ) : (p.scale k).scale c = p.scale (c * k) := by
  refine eq_of_toMvPolynomial ((hp.scale k).scale c) (hp.scale _) ?_
  rw [toMvPolynomial_scale, toMvPolynomial_scale, toMvPolynomial_scale, C_mul, mul_assoc]

theorem isPrimitive_of_primitive? (hp : p.Ordered) (h : p.primitive? = some (k, q)) :
    q.IsPrimitive := by
  obtain ⟨nonzero, same, integer, -⟩ := primitive?_eq_some hp h
  obtain ⟨⟨t, ts, terms, positive⟩, -⟩ := factor_of_primitive? hp h
  refine ⟨integer, fun d divides => ?_, ?_⟩
  · have all : d ∣ q.numeratorGcd := dvd_foldl_gcd (dvd_zero _) fun t mem => by
      rw [integer.denominatorLcm, Nat.cast_one, mul_one]
      exact Int.natCast_dvd.1 (divides t mem)
    rw [numeratorGcd_primitive hp h] at all
    exact Nat.dvd_one.1 all
  · rw [same, terms_scale (inv_ne_zero nonzero), terms, List.map_cons]
    exact ⟨_, _, rfl, positive⟩

/-- No other multiple of a primitive polynomial is primitive. -/
theorem IsPrimitive.eq_one (hp : p.IsPrimitive) (h : (p.scale c).IsPrimitive) : c = 1 := by
  obtain ⟨t, ts, terms, positive⟩ := hp.first_pos
  obtain ⟨u, us, scaled, positive'⟩ := h.first_pos
  have nonzero : c ≠ 0 := by
    rintro rfl
    rw [scale, if_pos rfl] at scaled
    cases scaled
  rw [terms_scale nonzero, terms, List.map_cons, List.cons.injEq] at scaled
  obtain ⟨rfl, -⟩ := scaled
  have above : 0 < c := (mul_pos_iff_of_pos_left positive).1 positive'
  have integers : ∀ t ∈ p.terms, ∃ m n : ℤ, t.coeff = m ∧ t.coeff * c = n := fun t mem => by
    obtain ⟨m, hm⟩ := den_eq_one_iff_exists.1 (hp.integer t mem)
    have image : (⟨t.monomial, t.coeff * c⟩ : Term) ∈ (p.scale c).terms := by
      rw [terms_scale nonzero]
      exact List.mem_map_of_mem mem
    obtain ⟨n, hn⟩ := den_eq_one_iff_exists.1 (h.integer _ image)
    exact ⟨m, n, hm, hn⟩
  -- the denominator of the factor divides every coefficient in front of it
  have den : c.den = 1 := hp.coprime c.den fun t mem => by
    obtain ⟨m, n, hm, hn⟩ := integers t mem
    rw [hm] at hn
    have product : m * c.num = n * c.den := by
      have fraction : (c.num : ℚ) = c * c.den := (Rat.mul_den_eq_num c).symm
      have cast : (m : ℚ) * c.num = n * c.den := by rw [fraction, ← mul_assoc, hn]
      exact_mod_cast cast
    rw [hm, Rat.num_intCast]
    have coprime : IsCoprime (c.den : ℤ) c.num := (Rat.isCoprime_num_den c).symm
    exact coprime.dvd_of_dvd_mul_right ⟨n, product.trans (mul_comm _ _)⟩
  obtain ⟨a, rfl⟩ := den_eq_one_iff_exists.1 den
  -- and the factor itself every coefficient behind it
  have size : a.natAbs = 1 := h.coprime a.natAbs fun u mem => by
    rw [terms_scale nonzero] at mem
    obtain ⟨t, inside, rfl⟩ := List.mem_map.1 mem
    obtain ⟨m, -, hm, -⟩ := integers t inside
    rw [hm, ← Int.cast_mul, Rat.num_intCast, Int.natAbs_dvd]
    exact dvd_mul_left a m
  have sign : 0 < a := Int.cast_pos.1 above
  have one : a = 1 := by omega
  rw [one, Int.cast_one]

theorem exists_primitive? (h : p ≠ zero) : ∃ k q, p.primitive? = some (k, q) := by
  obtain ⟨_ | ⟨t, ts⟩⟩ := p
  · exact absurd rfl h
  · exact ⟨_, _, rfl⟩

theorem scale_ne_zero (hc : c ≠ 0) (h : p ≠ zero) : p.scale c ≠ zero := by
  intro none
  have terms := terms_scale hc p
  rw [none] at terms
  obtain ⟨ts⟩ := p
  exact h (congrArg Poly.mk (List.map_eq_nil_iff.1 terms.symm))

theorem eq_scale_of_primitive? (hp : p.Ordered) (h : p.primitive? = some (k, q)) :
    p = q.scale k := by
  obtain ⟨nonzero, same, -, -⟩ := primitive?_eq_some hp h
  rw [same, scale_scale hp, mul_inv_cancel₀ nonzero, scale_one]

/-- A polynomial and its multiples have one primitive part. -/
theorem primitive?_scale (hp : p.Ordered) (hc : c ≠ 0) (h : p.primitive? = some (k, q)) :
    (p.scale c).primitive? = some (c * k, q) := by
  have filled : p ≠ zero := by
    rintro rfl
    cases h
  obtain ⟨k', q', h'⟩ := exists_primitive? (scale_ne_zero hc filled)
  obtain ⟨nonzero, same, -, -⟩ := primitive?_eq_some hp h
  obtain ⟨nonzero', same', -, -⟩ := primitive?_eq_some (hp.scale c) h'
  have ordered : q.Ordered := same ▸ hp.scale _
  have multiple : q' = q.scale (k'⁻¹ * c * k) := by
    rw [same', eq_scale_of_primitive? hp h, scale_scale ordered, scale_scale ordered, mul_assoc]
  have one : k'⁻¹ * c * k = 1 :=
    (isPrimitive_of_primitive? hp h).eq_one (multiple ▸ isPrimitive_of_primitive? (hp.scale c) h')
  have factor : k' = c * k := by
    rw [mul_assoc] at one
    exact ((inv_mul_eq_one₀ nonzero').1 one)
  rw [h', multiple, one, scale_one, factor]

/-- The polynomials that the operations build from constants and atoms. A product or power is built
where all exponents on the way to it fit their word. -/
inductive Built : Poly → Prop
  | const (c : ℚ) : Built (.const c)
  | ofAtom (a : Atom) : Built (.ofAtom a)
  | add {p q : Poly} (hp : Built p) (hq : Built q) : Built (p + q)
  | sub {p q : Poly} (hp : Built p) (hq : Built q) : Built (p - q)
  | neg {p : Poly} (hp : Built p) : Built (-p)
  | mul {p q r : Poly} (hp : Built p) (hq : Built q) (fits : p.mul? q = some r) : Built r
  | scale {p : Poly} (hp : Built p) (k : ℚ) : Built (p.scale k)
  | pow {p r : Poly} (hp : Built p) (n : ℕ) (fits : p.pow? n = some r) : Built r
  | withoutConstant {p : Poly} (hp : Built p) : Built p.withoutConstant
  | primitive {p q : Poly} {k : ℚ} (hp : Built p) (h : p.primitive? = some (k, q)) : Built q

theorem Built.ordered (h : Built p) : p.Ordered := by
  induction h with
  | const c => exact ordered_const c
  | ofAtom a => exact ordered_ofAtom a
  | add _ _ hp hq => exact hp.add hq
  | sub _ _ hp hq => exact hp.sub hq
  | neg _ hp => exact hp.neg
  | mul _ _ fits hp hq => exact eq_mul_of_mul? fits ▸ hp.mul hq
  | scale _ k hp => exact hp.scale k
  | pow _ n fits hp => exact eq_pow_of_pow? fits ▸ hp.pow n
  | withoutConstant _ hp => exact hp.withoutConstant
  | primitive _ h hp => exact (primitive?_eq_some hp h).2.1 ▸ hp.scale _

/-- The operations are those of the polynomial ring over the rationals, in which the polynomials
that they build are told apart; and a polynomial other than zero is a multiple of a primitive one,
the same for all its multiples. -/
theorem ring_of_built (p q : Poly) (hp : Built p) (hq : Built q) :
    (p.Ordered ∧ (p = q ↔ p.toMvPolynomial = q.toMvPolynomial)) ∧
    ((∀ c, (const c).toMvPolynomial = C c) ∧ (∀ a, (ofAtom a).toMvPolynomial = X a) ∧
      (p + q).toMvPolynomial = p.toMvPolynomial + q.toMvPolynomial ∧
      (p - q).toMvPolynomial = p.toMvPolynomial - q.toMvPolynomial ∧
      (-p).toMvPolynomial = -p.toMvPolynomial ∧
      (∀ r, p.mul? q = some r → r.toMvPolynomial = p.toMvPolynomial * q.toMvPolynomial) ∧
      (∀ k, (p.scale k).toMvPolynomial = C k * p.toMvPolynomial) ∧
      (∀ n r, p.pow? n = some r → r.toMvPolynomial = p.toMvPolynomial ^ n) ∧
      p.withoutConstant.toMvPolynomial =
        p.toMvPolynomial - C (constantCoeff p.toMvPolynomial)) ∧
    (p ≠ zero → ∃ k r, p.primitive? = some (k, r) ∧ p = r.scale k ∧ r.IsPrimitive ∧
      ∀ c ≠ 0, (p.scale c).primitive? = some (c * k, r)) := by
  refine ⟨⟨hp.ordered, congrArg _, eq_of_toMvPolynomial hp.ordered hq.ordered⟩,
    ⟨toMvPolynomial_const, toMvPolynomial_ofAtom, toMvPolynomial_add p q, toMvPolynomial_sub p q,
      toMvPolynomial_neg p, ?_, fun k => toMvPolynomial_scale k p, ?_,
      toMvPolynomial_withoutConstant hp.ordered⟩, ?_⟩
  · intro r fits
    rw [eq_mul_of_mul? fits, toMvPolynomial_mul]
  · intro n r fits
    rw [eq_pow_of_pow? fits, toMvPolynomial_pow]
  · intro filled
    obtain ⟨k, r, split⟩ := exists_primitive? filled
    exact ⟨k, r, split, eq_scale_of_primitive? hp.ordered split,
      isPrimitive_of_primitive? hp.ordered split, fun c hc => primitive?_scale hp.ordered hc split⟩

/-- The polynomial `x / 2 + y / 3`, whose primitive part is `3 * x + 2 * y`. -/
def slopes : Poly := (symbol "x").scale (1 / 2) + (symbol "y").scale (1 / 3)

theorem ring_of_built_slopes : Built slopes ∧ slopes ≠ zero ∧
    (slopes - -slopes).toMvPolynomial = slopes.toMvPolynomial - (-slopes).toMvPolynomial ∧
    ∃ k r, slopes.primitive? = some (k, r) ∧ slopes = r.scale k ∧ r.IsPrimitive ∧
      (slopes.scale (-6)).primitive? = some (-6 * k, r) := by
  have built : Built slopes := .add (.scale (.ofAtom _) _) (.scale (.ofAtom _) _)
  have filled : slopes ≠ zero := by
    intro none
    have terms : slopes.isZero = false := by cbv
    rw [none] at terms
    cases terms
  obtain ⟨-, ⟨-, -, -, difference, -⟩, split⟩ := ring_of_built slopes (-slopes) built built.neg
  obtain ⟨k, r, parts, whole, primitive, multiples⟩ := split filled
  exact ⟨built, filled, difference, k, r, parts, whole, primitive, multiples (-6) (by norm_num)⟩

end Poly
end PredicateStrength
