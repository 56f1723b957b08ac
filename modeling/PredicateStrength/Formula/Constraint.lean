import PredicateStrength.Formula.Basic

/-!
The constraint that a comparison of two polynomials amounts to over the integers, its complement,
and when its bounds alone decide it.
-/
namespace PredicateStrength

/-- What symbols and applications stand for. -/
inductive Domain where
  /-- Integers from zero on. -/
  | unsigned
  /-- All integers. -/
  | integer
deriving DecidableEq, Repr

namespace Formula

/-- The disjunction of some formulas; of one formula it is that formula. -/
def anyOf : List Formula → Formula
  | [] => .const false
  | [f] => f
  | fs => .or fs

end Formula

/-- Whether `value o 0` holds; any operator but the five named ones reads as `!=`. -/
def comparesToZero (o : Operator) (value : Rat) : Bool :=
  match o with
  | .lt => value < 0
  | .le => value ≤ 0
  | .gt => 0 < value
  | .ge => 0 ≤ value
  | .eq => value = 0
  | _ => value ≠ 0

namespace Bound

/-- The integers `x` with `x o target`: all of them (`true`), none (`false`) or those in a bound.
Bounds of strict and fractional comparisons are rounded inward. -/
def ofComparison (o : Operator) (target : Rat) : Bool ⊕ Bound :=
  match o with
  | .lt => .inr (.range none (some (target.ceil - 1)))
  | .le => .inr (.range none (some target.floor))
  | .gt => .inr (.range (some (target.floor + 1)) none)
  | .ge => .inr (.range (some target.ceil) none)
  | .eq => if target.den = 1 then .inr (.range (some target.num) (some target.num)) else .inl false
  | .ne => if target.den = 1 then .inr (.ne target.num) else .inl true
  | _ => .inl true

/-- The lower end that also counts `0 ≤ x` when that is known. -/
def effectiveLo (nonneg : Bool) : Option Int → Option Int
  | some l => some (if nonneg then max l 0 else l)
  | none => if nonneg then some 0 else none

/-- Whether the bound holds of every integer (`true`) or of none (`false`), where `nonneg` limits
the integers to those from zero on; `none` if the ends alone do not tell. -/
def decide? (nonneg : Bool) : Bound → Option Bool
  | .range lo hi =>
    let isEmpty : Bool := match effectiveLo nonneg lo, hi with
      | some l, some h => h < l
      | _, _ => false
    if isEmpty then some false
    else if hi.isNone && lo.all (fun l => nonneg && l ≤ 0) then some true
    else none
  | .ne v => if nonneg && v < 0 then some true else none

/-- The bounds one of which holds exactly where this one does not. -/
def complement : Bound → List Bound
  | .range lo hi =>
    (lo.map fun l => .range none (some (l - 1))).toList ++
      (hi.map fun h => .range (some (h + 1)) none).toList
  | .ne v => [.range (some v) (some v)]

end Bound

namespace Constraint

/-- `p o q` as a constraint on a primitive polynomial without constant term; a constant if the
difference has no atoms or no integer can satisfy or violate it. -/
def ofComparison (o : Operator) (p q : Poly) : Formula :=
  let diff := p - q
  match diff.withoutConstant.primitive? with
  | none => .const (comparesToZero o diff.constantTerm)
  | some (k, linear) =>
    -- `k · linear + offset o 0` holds exactly if `linear o' -offset / k`
    match Bound.ofComparison (if k < 0 then o.mirrored else o) (-diff.constantTerm / k) with
    | .inl b => .const b
    | .inr bound => .constraint ⟨linear, bound⟩

/-- The polynomial takes values from zero on only. -/
def isNonneg (c : Constraint) (d : Domain) : Bool := d = .unsigned && c.poly.isNonneg

/-- The constraint's truth value, if its bounds alone decide it. -/
def decide? (c : Constraint) (d : Domain) : Option Bool := c.bound.decide? (c.isNonneg d)

/-- The constraints one of which holds exactly where this one does not. -/
def complement (c : Constraint) : List Constraint :=
  c.bound.complement.map fun b => ⟨c.poly, b⟩

/-- The formula that holds exactly where the constraint does not. -/
def negate (c : Constraint) : Formula := .anyOf (c.complement.map .constraint)

end Constraint
end PredicateStrength
