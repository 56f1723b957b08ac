import PredicateStrength.Operator
import PredicateStrength.Poly.Arithmetic

/-!
Formulas over polynomial constraints, and the constraint that a comparison of two polynomials
amounts to over the integers.
-/
namespace PredicateStrength

/-- The integers that a constraint leaves its polynomial. -/
inductive Bound where
  /-- Those from `lo` to `hi`; a missing end is unbounded. -/
  | range (lo hi : Option Int)
  /-- All but one. -/
  | ne (value : Int)
deriving DecidableEq, Repr

/-- A polynomial and the values that it may take. Constraints that arise from comparisons have a
primitive polynomial without constant term, so comparisons of one linear form share it. -/
structure Constraint where
  poly : Poly
  bound : Bound
deriving DecidableEq

inductive Formula where
  | const (value : Bool)
  /-- An atom read as a truth value. -/
  | prop (a : Atom)
  | constraint (c : Constraint)
  | not (f : Formula)
  | and (fs : List Formula)
  | or (fs : List Formula)

instance : Inhabited Formula := ⟨.const true⟩

namespace Bound

/-- Missing ends come first. -/
def endCmp : Option Int → Option Int → Ordering
  | none, none => .eq
  | none, some _ => .lt
  | some _, none => .gt
  | some a, some b => compare a b

/-- Ranges by their ends, and before disequalities. -/
def cmp : Bound → Bound → Ordering
  | .range lo hi, .range lo' hi' => (endCmp lo lo').then (endCmp hi hi')
  | .range .., .ne _ => .lt
  | .ne _, .range .. => .gt
  | .ne a, .ne b => compare a b

end Bound

namespace Constraint

/-- By the polynomial, then by the bound. -/
def cmp (c d : Constraint) : Ordering := (c.poly.cmp d.poly).then (c.bound.cmp d.bound)

end Constraint

namespace Formula

mutual
/-- By the kind of formula, then by the parts from left to right. -/
def cmp : Formula → Formula → Ordering
  | .const a, .const b => compare a b
  | .prop a, .prop b => a.cmp b
  | .constraint c, .constraint d => c.cmp d
  | .not f, .not g => f.cmp g
  | .and fs, .and gs => cmpList fs gs
  | .or fs, .or gs => cmpList fs gs
  | f, g => compare f.ctorIdx g.ctorIdx

def cmpList : List Formula → List Formula → Ordering
  | [], [] => .eq
  | [], _ :: _ => .lt
  | _ :: _, [] => .gt
  | f :: fs, g :: gs => (f.cmp g).then (cmpList fs gs)
end

end Formula
end PredicateStrength
