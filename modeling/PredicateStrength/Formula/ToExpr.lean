import PredicateStrength.Expr.Numeric
import PredicateStrength.Expr.Printer
import PredicateStrength.Formula.Basic

/-!
Formulas and polynomials as trees. In a comparison, terms with a negative coefficient stand on the
right, so both sides are sums of positive terms; in a polynomial they are subtracted.
-/
namespace PredicateStrength

namespace Expr

/-- Operands joined by a logical operator; one operand stands alone, none is its unit. -/
def junction (o : Operator) : List Expr → Expr
  | [] => .bool (o = .and)
  | [e] => e
  | es => .op o es

/-- A sum of operands. -/
def sum : List Expr → Expr
  | [] => .num "0"
  | [e] => e
  | es => .op .add es

/-- A product of a positive coefficient and factors. A fractional coefficient is a numerator among
the factors and a division by the denominator. -/
def product (coeff : Rat) (factors : List Expr) : Expr :=
  if factors.isEmpty then ofRat coeff
  else
    let product :=
      match if coeff.num = 1 then factors else .num (toString coeff.num) :: factors with
      | [e] => e
      | es => .op .mul es
    if coeff.den = 1 then product else .binary .div product (.num (toString coeff.den))

/-- A summand, or what it takes away from a sum. -/
structure Summand where
  isNegative : Bool
  magnitude : Expr

/-- The operands that are added, and those that are taken away. -/
def Summand.split (ss : List Summand) : List Expr × List Expr :=
  ((ss.filter (!·.isNegative)).map Summand.magnitude,
    (ss.filter (·.isNegative)).map Summand.magnitude)

/-- A sum less each operand that is taken away. -/
def difference (ss : List Summand) : Expr :=
  match Summand.split ss with
  | ([], []) => .num "0"
  | ([], first :: rest) => rest.foldl (.binary .sub) (.neg first)
  | (added, taken) => taken.foldl (.binary .sub) (sum added)

end Expr

/-- The application of a head to arguments; an index read takes the last of them. -/
def Head.applyTo (args : List Expr) : Head → Expr
  | .function name => .apply name args
  | .index name => .index (.ident name) (args.getLast?.getD (.num "0"))
  | .indexField name field =>
    .member (.index (.ident name) (args.getLast?.getD (.num "0"))) field

mutual
/-- The tree of an atom. -/
def Atom.toExpr : Atom → Expr
  | .symbol name => .ident name
  | .app head args => head.applyTo (Poly.toExprs args)
  | .quot p q => .binary .div p.toExpr q.toExpr
  | .rem p q => .binary .mod p.toExpr q.toExpr
  | .verbatim e => e

/-- The trees of factors; powers other than the first are written out. -/
def Factor.toExprs : List Factor → List Expr
  | [] => []
  | ⟨a, n⟩ :: fs =>
    (if n = 1 then a.toExpr else .binary .pow a.toExpr (.num (toString n))) :: Factor.toExprs fs

/-- The trees of the factors of a monomial. -/
def Monomial.factorExprs : Monomial → List Expr
  | ⟨fs⟩ => Factor.toExprs fs

/-- The summands that terms are. -/
def Term.summands : List Term → List Expr.Summand
  | [] => []
  | ⟨m, c⟩ :: ts =>
    ⟨c < 0, Expr.product (if c < 0 then -c else c) m.factorExprs⟩ :: Term.summands ts

/-- The summands of a polynomial. -/
def Poly.summands : Poly → List Expr.Summand
  | ⟨ts⟩ => Term.summands ts

/-- The tree of a polynomial. -/
def Poly.toExpr : Poly → Expr
  | ⟨ts⟩ => Expr.difference (Term.summands ts)

/-- The trees of polynomials. -/
def Poly.toExprs : List Poly → List Expr
  | [] => []
  | p :: ps => p.toExpr :: Poly.toExprs ps
end

namespace Constraint

/-- `p o value`, with each summand on the side where it is positive. -/
def comparisonExpr (o : Operator) (p : Poly) (value : Int) : Expr :=
  let (added, taken) := Expr.Summand.split p.summands
  .binary o
    (.sum (if value < 0 then added ++ [.ofInt (-value)] else added))
    (.sum (if 0 < value then taken ++ [.ofInt value] else taken))

/-- The tree of a constraint: an equation if both ends agree. -/
def toExpr (c : Constraint) : Expr :=
  match c.bound with
  | .range (some l) (some h) =>
    if l = h then comparisonExpr .eq c.poly l
    else .op .and [comparisonExpr .ge c.poly l, comparisonExpr .le c.poly h]
  | .range lo hi =>
    .junction .and
      ((lo.map (comparisonExpr .ge c.poly)).toList ++ (hi.map (comparisonExpr .le c.poly)).toList)
  | .ne v => comparisonExpr .ne c.poly v

end Constraint

namespace Formula

mutual
/-- The tree of a formula. -/
def toExpr : Formula → Expr
  | .const b => .bool b
  | .prop a => a.toExpr
  | .constraint c => c.toExpr
  | .not f => .not f.toExpr
  | .and fs => .junction .and (toExprs fs)
  | .or fs => .junction .or (toExprs fs)

/-- The trees of formulas. -/
def toExprs : List Formula → List Expr
  | [] => []
  | f :: fs => f.toExpr :: toExprs fs
end

/-- A formula is written as its tree. -/
def text (f : Formula) : String := f.toExpr.text

end Formula

/-- A polynomial is written as its tree. -/
def Poly.text (p : Poly) : String := p.toExpr.text

/-- What a tree stands for: a formula, or a polynomial for an arithmetic tree. -/
inductive Symbolic where
  | formula (f : Formula)
  | term (p : Poly)

namespace Symbolic

def toExpr : Symbolic → Expr
  | .formula f => f.toExpr
  | .term p => p.toExpr

def text (s : Symbolic) : String := s.toExpr.text

end Symbolic
end PredicateStrength
