import PredicateStrength.Expr.Basic
import PredicateStrength.Numeral

/-!
Numerals as trees: the value of a tree that is a numeral, and a tree for a given value.
-/
namespace PredicateStrength.Expr

/-- The exact value of a numeral, or of a negated one. -/
def literalValue? : Expr → Option Rat
  | .num digits => Numeral.value? digits
  | .neg e => e.literalValue?.map fun q => -q
  | _ => none

/-- A numeral, not a negated one, with the value zero. -/
def isZeroLiteral : Expr → Bool
  | .num digits => Numeral.value? digits = some 0
  | _ => false

/-- An integer as a numeral, negated if below zero. -/
def ofInt (n : Int) : Expr :=
  if n < 0 then .neg (.num (toString n.natAbs)) else .num (toString n.natAbs)

/-- An exact value: `3`, `-3`, and a division for a fraction. -/
def ofRat (q : Rat) : Expr :=
  if q.den = 1 then ofInt q.num else .binary .div (ofInt q.num) (ofInt q.den)

end PredicateStrength.Expr
