import PredicateStrength.Expr.Basic

/-!
Polynomials with rational coefficients over integer-valued atoms. An atom is a name, or something
the polynomials do not interpret: an application, a quotient, a remainder, a tree kept as it
stands; its parts are polynomials again.
-/
namespace PredicateStrength

/-- What is applied in an uninterpreted application. -/
inductive Head where
  /-- `name(…)` -/
  | function (name : String)
  /-- `name[…]` -/
  | index (name : String)
  /-- `name[…].field` -/
  | indexField (name field : String)
deriving DecidableEq, Repr

mutual
/-- An integer-valued leaf of a polynomial. -/
inductive Atom where
  | symbol (name : String)
  | app (head : Head) (args : List Poly)
  /-- The quotient, rounded toward zero. -/
  | quot (num den : Poly)
  /-- The remainder of that quotient. -/
  | rem (num den : Poly)
  /-- A tree without symbolic meaning. -/
  | verbatim (e : Expr)

/-- A positive power of an atom. -/
structure Factor where
  atom : Atom
  exponent : Nat

/-- A product of powers of different atoms, in ascending order; the empty product is `1`. -/
structure Monomial where
  factors : List Factor

/-- A monomial with a coefficient other than zero. -/
structure Term where
  monomial : Monomial
  coeff : Rat

/-- A sum of terms with different monomials, in ascending order; the empty sum is `0`. -/
structure Poly where
  terms : List Term
end

namespace Monomial

/-- The empty product. -/
def unit : Monomial := ⟨[]⟩

/-- An atom by itself. -/
def ofAtom (a : Atom) : Monomial := ⟨[⟨a, 1⟩]⟩

def isUnit (m : Monomial) : Bool := m.factors.isEmpty

/-- The atom that the monomial is. -/
def atom? (m : Monomial) : Option Atom :=
  match m.factors with
  | [⟨a, 1⟩] => some a
  | _ => none

end Monomial

namespace Poly

/-- The empty sum. -/
def zero : Poly := ⟨[]⟩

/-- The monomials of the terms, in ascending order. -/
def monomials (p : Poly) : List Monomial := p.terms.map Term.monomial

/-- A constant. -/
def const (q : Rat) : Poly := if q = 0 then zero else ⟨[⟨.unit, q⟩]⟩

/-- An atom by itself. -/
def ofAtom (a : Atom) : Poly := ⟨[⟨.ofAtom a, 1⟩]⟩

/-- A name by itself. -/
def symbol (name : String) : Poly := ofAtom (.symbol name)

def isZero (p : Poly) : Bool := p.terms.isEmpty

/-- The value, if there are no atoms. -/
def constant? (p : Poly) : Option Rat :=
  match p.terms with
  | [] => some 0
  | [t] => if t.monomial.isUnit then some t.coeff else none
  | _ => none

/-- The value, if there are no atoms and it is an integer. -/
def integer? (p : Poly) : Option Int :=
  p.constant?.bind fun q => if q.den = 1 then some q.num else none

/-- The coefficient of the empty product. -/
def constantTerm (p : Poly) : Rat :=
  ((p.terms.find? (·.monomial.isUnit)).map Term.coeff).getD 0

/-- All but the constant term. -/
def withoutConstant (p : Poly) : Poly := ⟨p.terms.filter fun t => !t.monomial.isUnit⟩

/-- Every coefficient is an integer multiple of `k`; only zero is a multiple of zero. -/
def divisibleBy (p : Poly) (k : Int) : Bool :=
  p.terms.all fun t => t.coeff.den = 1 && t.coeff.num % k = 0

/-- The least common multiple of the denominators. -/
def denominatorLcm (p : Poly) : Nat := p.terms.foldl (fun n t => n.lcm t.coeff.den) 1

end Poly

mutual
/-- The atom is at least zero whenever names, reads and applications are. A quotient or remainder
follows the sign of its numerator, since that can be a difference. -/
def Atom.isNonneg : Atom → Bool
  | .symbol _ => true
  | .app _ _ => true
  | .quot p q => p.isNonneg && q.isNonneg
  | .rem p _ => p.isNonneg
  | .verbatim e => !e.mayBeNegative

/-- Each factor has an even exponent or an atom that is at least zero. -/
def Monomial.isNonneg : Monomial → Bool
  | ⟨fs⟩ => Factor.allNonneg fs

def Factor.allNonneg : List Factor → Bool
  | [] => true
  | ⟨a, e⟩ :: fs => (e % 2 = 0 || a.isNonneg) && Factor.allNonneg fs

/-- Coefficients above zero on monomials that are at least zero. -/
def Poly.isNonneg : Poly → Bool
  | ⟨ts⟩ => Term.allNonneg ts

def Term.allNonneg : List Term → Bool
  | [] => true
  | ⟨m, c⟩ :: ts => 0 ≤ c && m.isNonneg && Term.allNonneg ts
end

end PredicateStrength
