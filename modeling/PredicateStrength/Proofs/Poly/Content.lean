import Mathlib
import PredicateStrength.Proofs.Poly.WellFormed

/-!
# Constant term, denominators and content

A polynomial is its constant term and the rest, and the rest is its content times a primitive
polynomial. Multiplying by the least common multiple of the denominators leaves integers, so the
primitive part has integer coefficients.

Main statement: `primitive?_eq_some`.
-/
namespace PredicateStrength.Poly

variable (v : Atom → Int)

theorem eq_unit_of_isUnit {m : Monomial} (unit : m.isUnit = true) : m = .unit := by
  have empty : m.factors = [] := by simpa [Monomial.isUnit] using unit
  obtain ⟨fs⟩ := m
  exact congrArg Monomial.mk empty

/-- At most the first term has no atoms, so it is the constant term. -/
theorem valueAt_eq_constantTerm_add {w : Monomial → Rat} (one : w .unit = 1) {p : Poly}
    (hp : p.Ordered) : p.valueAt w = p.constantTerm + p.withoutConstant.valueAt w := by
  obtain ⟨ts⟩ := p
  induction ts with
  | nil => simp [valueAt, constantTerm, withoutConstant]
  | cons t ts ih =>
    obtain ⟨⟨_, _, below⟩, rest⟩ := Ordered.cons_iff.1 hp
    have ih := ih rest
    simp only [valueAt, constantTerm, withoutConstant] at ih ⊢
    rw [Term.sumAt_cons, List.find?_cons, List.filter_cons]
    by_cases unit : t.monomial.isUnit = true
    · have first : t.monomial = .unit := eq_unit_of_isUnit unit
      have others : ts.filter (fun u => !u.monomial.isUnit) = ts := by
        refine List.filter_eq_self.2 fun u hu => ?_
        by_contra twice
        have second : u.monomial = .unit := eq_unit_of_isUnit (by simpa using twice)
        have less := below u hu
        rw [first, second] at less
        simp [Monomial.cmp, Factor.cmpList, Monomial.unit] at less
      have value : w t.monomial = 1 := first ▸ one
      simp [others, unit, value]
    · simp only [unit, Bool.not_false, if_true, Term.sumAt_cons]
      rw [ih]
      ring

theorem value_eq_constantTerm_add {p : Poly} (hp : p.Ordered) :
    p.value v = p.constantTerm + p.withoutConstant.value v :=
  valueAt_eq_constantTerm_add (w := fun m => (m.value v : Rat)) (by simp) hp

theorem foldl_lcm_dvd (ts : List Term) (n : Nat) :
    n ∣ ts.foldl (fun n t => n.lcm t.coeff.den) n ∧
      ∀ t ∈ ts, t.coeff.den ∣ ts.foldl (fun n t => n.lcm t.coeff.den) n := by
  induction ts generalizing n with
  | nil => simp
  | cons t ts ih =>
    obtain ⟨start, rest⟩ := ih (n.lcm t.coeff.den)
    rw [List.foldl_cons]
    refine ⟨(Nat.dvd_lcm_left _ _).trans start, fun u hu => ?_⟩
    rcases List.mem_cons.1 hu with rfl | hu
    · exact (Nat.dvd_lcm_right _ _).trans start
    · exact rest u hu

theorem foldl_lcm_pos (ts : List Term) {n : Nat} (hn : 0 < n) :
    0 < ts.foldl (fun n t => n.lcm t.coeff.den) n := by
  induction ts generalizing n with
  | nil => exact hn
  | cons t ts ih => exact ih (Nat.lcm_pos hn t.coeff.den_pos)

theorem denominatorLcm_pos (p : Poly) : 0 < p.denominatorLcm := foldl_lcm_pos p.terms one_pos

/-- A multiple of the denominator makes a rational an integer. -/
theorem num_mul_of_den_dvd {q : Rat} {n : Nat} (h : q.den ∣ n) : ((q * n).num : Rat) = q * n := by
  obtain ⟨k, rfl⟩ := h
  have : q * ((q.den * k : Nat) : Rat) = ((q.num * k : Int) : Rat) := by
    push_cast
    rw [← mul_assoc, Rat.mul_den_eq_num]
  rw [this, Rat.num_intCast]

theorem num_mul_denominatorLcm {p : Poly} {t : Term} (ht : t ∈ p.terms) :
    ((t.coeff * (p.denominatorLcm : Rat)).num : Rat) = t.coeff * p.denominatorLcm :=
  num_mul_of_den_dvd ((foldl_lcm_dvd p.terms 1).2 t ht)

theorem num_constantTerm_mul_denominatorLcm (p : Poly) :
    ((p.constantTerm * (p.denominatorLcm : Rat)).num : Rat) =
      p.constantTerm * p.denominatorLcm := by
  rw [constantTerm]
  cases found : p.terms.find? (·.monomial.isUnit) with
  | none => simp
  | some t => exact num_mul_denominatorLcm (List.mem_of_find?_eq_some found)

theorem foldl_gcd_dvd (f : Term → Nat) (ts : List Term) (n : Nat) :
    ts.foldl (fun n t => n.gcd (f t)) n ∣ n ∧
      ∀ t ∈ ts, ts.foldl (fun n t => n.gcd (f t)) n ∣ f t := by
  induction ts generalizing n with
  | nil => simp
  | cons t ts ih =>
    obtain ⟨start, rest⟩ := ih (n.gcd (f t))
    rw [List.foldl_cons]
    refine ⟨start.trans (Nat.gcd_dvd_left _ _), fun u hu => ?_⟩
    rcases List.mem_cons.1 hu with rfl | hu
    · exact start.trans (Nat.gcd_dvd_right _ _)
    · exact rest u hu

theorem numeratorGcd_dvd {p : Poly} {t : Term} (ht : t ∈ p.terms) :
    (p.numeratorGcd : Int) ∣ (t.coeff * (p.denominatorLcm : Rat)).num :=
  Int.natCast_dvd.2 ((foldl_gcd_dvd _ p.terms 0).2 t ht)

theorem numeratorGcd_ne_zero {p : Poly} {t : Term} (ht : t ∈ p.terms) (hc : t.coeff ≠ 0) :
    p.numeratorGcd ≠ 0 := by
  intro zero
  have dvd := numeratorGcd_dvd ht
  rw [zero, Nat.cast_zero, zero_dvd_iff] at dvd
  have product := num_mul_denominatorLcm ht
  rw [dvd, Int.cast_zero] at product
  have positive := p.denominatorLcm_pos
  rcases mul_eq_zero.1 product.symm with coeff | lcm
  · exact hc coeff
  · rw [Nat.cast_eq_zero] at lcm
    omega

/-- A coefficient divided by the content is an integer. -/
theorem exists_int_of_content {p : Poly} {t : Term} (ht : t ∈ p.terms) (hc : t.coeff ≠ 0) :
    ∃ n : Int, t.coeff * (mkRat p.numeratorGcd p.denominatorLcm)⁻¹ = n := by
  obtain ⟨n, factored⟩ := numeratorGcd_dvd ht
  have gcd : (p.numeratorGcd : Rat) ≠ 0 := by exact_mod_cast numeratorGcd_ne_zero ht hc
  have lcm : (p.denominatorLcm : Rat) ≠ 0 := by exact_mod_cast p.denominatorLcm_pos.ne'
  have product := num_mul_denominatorLcm ht
  rw [factored] at product
  push_cast at product
  refine ⟨n, ?_⟩
  rw [Rat.mkRat_eq_div, Int.cast_natCast, inv_div, mul_div_assoc', ← product,
    mul_div_cancel_left₀ _ gcd]

/-- A polynomial is its content times the primitive part, which has integer coefficients. -/
theorem primitive?_eq_some {p q : Poly} {k : Rat} (hp : p.Ordered)
    (h : p.primitive? = some (k, q)) :
    k ≠ 0 ∧ q = p.scale k⁻¹ ∧ q.IntegerCoeffs ∧ ∀ v, p.value v = k * q.value v := by
  unfold primitive? at h
  split at h
  · cases h
  · next t ts terms =>
    have first : t ∈ p.terms := by rw [terms]; exact List.mem_cons_self
    have gcd : (p.numeratorGcd : Rat) ≠ 0 := by
      exact_mod_cast numeratorGcd_ne_zero first (hp.coeff_ne_zero t first)
    have lcm : (p.denominatorLcm : Rat) ≠ 0 := by exact_mod_cast p.denominatorLcm_pos.ne'
    have content : mkRat p.numeratorGcd p.denominatorLcm ≠ 0 := by
      rw [Rat.mkRat_eq_div, Int.cast_natCast]
      exact div_ne_zero gcd lcm
    obtain ⟨rfl, rfl⟩ := Prod.mk.inj (Option.some.inj h)
    have nonzero : (if t.coeff < 0 then -mkRat p.numeratorGcd p.denominatorLcm
        else mkRat p.numeratorGcd p.denominatorLcm) ≠ 0 := by
      split
      · exact neg_ne_zero.2 content
      · exact content
    refine ⟨nonzero, rfl, .scale fun u hu => den_eq_one_iff_exists.2 ?_, fun v => ?_⟩
    · obtain ⟨n, hn⟩ := exists_int_of_content hu (hp.coeff_ne_zero u hu)
      split
      · exact ⟨-n, by rw [inv_neg, mul_neg, hn, Int.cast_neg]⟩
      · exact ⟨n, hn⟩
    · rw [value_scale, mul_inv_cancel_left₀ nonzero]

end PredicateStrength.Poly
