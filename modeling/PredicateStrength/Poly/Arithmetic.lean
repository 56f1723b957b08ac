import PredicateStrength.Poly.Order

/-!
The ring operations of polynomials, and the split into content and primitive part. Every operation
keeps factors and terms in ascending order, without zero coefficients and with positive exponents,
so equal polynomials are equal structures.
-/
namespace PredicateStrength

namespace Monomial

/-- The factors with `a ^ n` multiplied in. -/
def mulFactor (a : Atom) (n : Nat) : List Factor → List Factor
  | [] => [⟨a, n⟩]
  | f :: fs =>
    match a.cmp f.atom with
    | .lt => ⟨a, n⟩ :: f :: fs
    | .eq => ⟨a, f.exponent + n⟩ :: fs
    | .gt => f :: mulFactor a n fs

/-- The product. -/
def mul (m n : Monomial) : Monomial :=
  ⟨n.factors.foldr (fun f fs => mulFactor f.atom f.exponent fs) m.factors⟩

instance : Mul Monomial := ⟨mul⟩

/-- The exponent of an atom, zero if it is no factor. -/
def exponent (m : Monomial) (a : Atom) : Nat :=
  ((m.factors.find? (·.atom = a)).map Factor.exponent).getD 0

/-- Exponents from this one on do not fit their word. -/
def exponentLimit : Nat := Nat.pow 2 32

/-- Every exponent of the product fits its word. -/
def mulFits (m n : Monomial) : Bool :=
  n.factors.all fun f => m.exponent f.atom + f.exponent < exponentLimit

end Monomial

namespace Poly

/-- The terms with `c · m` added. -/
def addTerm (m : Monomial) (c : Rat) : List Term → List Term
  | [] => if c = 0 then [] else [⟨m, c⟩]
  | t :: ts =>
    match m.cmp t.monomial with
    | .lt => if c = 0 then t :: ts else ⟨m, c⟩ :: t :: ts
    | .eq => if t.coeff + c = 0 then ts else ⟨m, t.coeff + c⟩ :: ts
    | .gt => t :: addTerm m c ts

/-- The sum. -/
def add (p q : Poly) : Poly :=
  ⟨q.terms.foldr (fun t ts => addTerm t.monomial t.coeff ts) p.terms⟩

instance : Add Poly := ⟨add⟩

/-- Every coefficient multiplied by `k`. -/
def scale (k : Rat) (p : Poly) : Poly :=
  if k = 0 then zero else ⟨p.terms.map fun t => ⟨t.monomial, t.coeff * k⟩⟩

instance : Neg Poly := ⟨scale (-1)⟩

instance : Sub Poly := ⟨fun p q => p + -q⟩

/-- The product of a polynomial and a term. -/
def mulTerm (p : Poly) (t : Term) : Poly :=
  ⟨p.terms.foldr (fun u ts => addTerm (u.monomial * t.monomial) (u.coeff * t.coeff) ts) []⟩

/-- The product. -/
def mul (p q : Poly) : Poly := q.terms.foldr (fun t r => r + p.mulTerm t) zero

instance : Mul Poly := ⟨mul⟩

/-- Every exponent that multiplying out forms fits its word. -/
def mulFits (p q : Poly) : Bool :=
  p.terms.all fun t => q.terms.all fun u => t.monomial.mulFits u.monomial

/-- The `n`-th power, by repeated multiplication. -/
def pow (p : Poly) : Nat → Poly
  | 0 => const 1
  | n + 1 => p.pow n * p

/-- The product, if its exponents fit their word. -/
def mul? (p q : Poly) : Option Poly := if p.mulFits q then some (p * q) else none

/-- The `n`-th power, if the exponents of every product on the way fit their word. -/
def pow? (p : Poly) : Nat → Option Poly
  | 0 => some (const 1)
  | n + 1 => (p.pow? n).bind fun q => q.mul? p

theorem eq_mul_of_mul? {p q r : Poly} (h : p.mul? q = some r) : r = p * q := by
  unfold mul? at h
  split at h <;> simp_all

theorem mul?_eq_none {p q : Poly} : p.mul? q = none ↔ p.mulFits q = false := by
  simp [mul?]

theorem eq_pow_of_pow? {p r : Poly} {n : Nat} (h : p.pow? n = some r) : r = p.pow n := by
  induction n generalizing r with
  | zero => simpa [pow?, pow] using h.symm
  | succ n ih =>
    obtain ⟨q, hq, hr⟩ := Option.bind_eq_some_iff.1 h
    rw [eq_mul_of_mul? hr, ih hq, pow]

theorem pow?_eq_none {p : Poly} {n : Nat} :
    p.pow? n = none ↔ ∃ k < n, (p.pow k).mulFits p = false := by
  induction n with
  | zero => simp [pow?]
  | succ n ih =>
    cases power : p.pow? n with
    | none =>
      obtain ⟨k, lt, unfit⟩ := ih.1 power
      exact iff_of_true (by rw [pow?, power]; rfl) ⟨k, by omega, unfit⟩
    | some q =>
      have before : ∀ k < n, (p.pow k).mulFits p ≠ false := fun k lt unfit => by
        cases power.symm.trans (ih.2 ⟨k, lt, unfit⟩)
      rw [pow?, power, Option.bind_some, mul?_eq_none, eq_pow_of_pow? power]
      refine ⟨fun unfit => ⟨n, by omega, unfit⟩, ?_⟩
      rintro ⟨k, lt, unfit⟩
      rcases Nat.lt_or_eq_of_le (Nat.le_of_lt_succ lt) with earlier | rfl
      · exact absurd unfit (before k earlier)
      · exact unfit

/-- The greatest common divisor of the coefficients after multiplying the denominators out. -/
def numeratorGcd (p : Poly) : Nat :=
  p.terms.foldl (fun n t => n.gcd (t.coeff * (p.denominatorLcm : Rat)).num.natAbs) 0

/-- A polynomial other than zero as `k · q`, where the coefficients of `q` are coprime integers
and the first of them is positive. -/
def primitive? (p : Poly) : Option (Rat × Poly) :=
  match p.terms with
  | [] => none
  | t :: _ =>
    let content := mkRat p.numeratorGcd p.denominatorLcm
    let k := if t.coeff < 0 then -content else content
    some (k, p.scale k⁻¹)

end Poly
end PredicateStrength
