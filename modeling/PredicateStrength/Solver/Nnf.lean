import PredicateStrength.Formula.Constraint

/-!
Negation normal form: negations stand at atoms only, and those of constraints are written out.
-/
namespace PredicateStrength

/-- A formula in negation normal form. -/
inductive Nnf where
  | const (value : Bool)
  /-- The atom has the given truth value. -/
  | literal (a : Atom) (value : Bool)
  | constraint (c : Constraint)
  | all (fs : List Nnf)
  | any (fs : List Nnf)

namespace Nnf

/-- One of the constraints holds; a single one needs no choice. -/
def anyConstraint : List Constraint → Nnf
  | [] => .const false
  | [c] => .constraint c
  | cs => .any (cs.map .constraint)

mutual
/-- The normal form of a formula, or of its negation if `positive` is not set. -/
def ofFormula (positive : Bool) : Formula → Nnf
  | .const b => .const (b == positive)
  | .prop a => .literal a positive
  | .constraint c => if positive then .constraint c else anyConstraint c.complement
  | .not f => ofFormula (!positive) f
  | .and fs => if positive then .all (ofFormulas positive fs) else .any (ofFormulas positive fs)
  | .or fs => if positive then .any (ofFormulas positive fs) else .all (ofFormulas positive fs)

def ofFormulas (positive : Bool) : List Formula → List Nnf
  | [] => []
  | f :: fs => ofFormula positive f :: ofFormulas positive fs
end

theorem ofFormulas_eq_map (positive : Bool) (fs : List Formula) :
    ofFormulas positive fs = fs.map (ofFormula positive) := by
  induction fs with
  | nil => rfl
  | cons f fs ih => rw [ofFormulas, ih, List.map_cons]

end Nnf
end PredicateStrength
