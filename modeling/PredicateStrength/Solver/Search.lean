import PredicateStrength.Solver.Elimination
import PredicateStrength.Solver.Nnf
import PredicateStrength.Solver.Relaxation

/-!
Satisfiability of a formula: split disjunctions and disequalities into cases, and decide each case
by its linear relaxation. Products of names count as unknowns of their own, so a model may be
spurious, but a refutation never is.
-/
namespace PredicateStrength.Solver

/-- What a branch has assumed: truth values of atoms, and constraints. -/
structure Cube where
  truths : List (Atom × Bool) := []
  constraints : List Constraint := []

namespace Cube

/-- A further truth value; `none` if the atom has the other one already. -/
def assume? (cube : Cube) (a : Atom) (value : Bool) : Option Cube :=
  match cube.truths.lookup a with
  | some v => if v = value then some cube else none
  | none => some { cube with truths := (a, value) :: cube.truths }

/-- A further constraint. -/
def require (cube : Cube) (c : Constraint) : Cube :=
  { cube with constraints := cube.constraints ++ [c] }

end Cube

/-- Whether the ranges among the constraints have a solution, and then `next`. -/
def ifFeasible (d : Domain) (cs : List Constraint) (next : Budgeted Bool) : Budgeted Bool := do
  if ← eliminate (relax d cs) then next else return false

/-- The first disequality `p ≠ v` split into `p ≤ v - 1` and `p ≥ v + 1`, behind the constraints
`done`, and the others in turn; each case has to stay feasible. -/
def splitDisequalities (d : Domain) (done : List Constraint) : List Constraint → Budgeted Bool
  | [] => pure true
  | c :: cs =>
    match c.bound with
    | .range _ _ => splitDisequalities d (done ++ [c]) cs
    | .ne v =>
      let side (b : Bound) : Budgeted Bool := do
        Budgeted.startBranch
        ifFeasible d (done ++ ⟨c.poly, b⟩ :: cs) (splitDisequalities d (done ++ [⟨c.poly, b⟩]) cs)
      Budgeted.orElse (side (.range none (some (v - 1)))) (side (.range (some (v + 1)) none))

/-- Whether the constraints of a case can hold together. -/
def decideCube (d : Domain) (cube : Cube) : Budgeted Bool :=
  ifFeasible d cube.constraints (splitDisequalities d [] cube.constraints)

mutual
/-- Whether some case of the formula, on top of what the cube assumes, satisfies `next`. -/
def search (next : Cube → Budgeted Bool) (cube : Cube) : Nnf → Budgeted Bool
  | .const b => if b then next cube else pure false
  | .literal a value =>
    match cube.assume? a value with
    | some cube => next cube
    | none => pure false
  | .constraint c => next (cube.require c)
  | .all fs => searchAll next cube fs
  | .any fs => searchAny next cube fs

/-- Whether some case of all the formulas, the last one first, satisfies `next`. -/
def searchAll (next : Cube → Budgeted Bool) (cube : Cube) : List Nnf → Budgeted Bool
  | [] => next cube
  | f :: fs => searchAll (fun cube => search next cube f) cube fs

/-- Whether some case of one of the formulas satisfies `next`; each formula is a branch. -/
def searchAny (next : Cube → Budgeted Bool) (cube : Cube) : List Nnf → Budgeted Bool
  | [] => pure false
  | f :: fs =>
    Budgeted.orElse
      (do
        Budgeted.startBranch
        search next cube f)
      (searchAny next cube fs)
end

/-- Whether some case of the formula is feasible. -/
def satisfiable (d : Domain) (f : Formula) : Budgeted Bool :=
  search (decideCube d) {} (Nnf.ofFormula true f)

/-- What a solver says about a formula. -/
inductive Answer where
  | sat
  | unsat
  /-- The budget was used up before an answer. -/
  | unknown
deriving DecidableEq, Repr

/-- The name under which an answer is logged. -/
def Answer.name : Answer → String
  | .sat => "Sat"
  | .unsat => "Unsat"
  | .unknown => "Unknown"

/-- The answer that the outcome of a search is. -/
def Answer.ofOutcome : Option Bool → Answer
  | some true => .sat
  | some false => .unsat
  | none => .unknown

/-- The answer to a formula, and what computing it reports. -/
def solve (d : Domain) (l : Limits) (f : Formula) : Logged Answer :=
  let (outcome, s) := satisfiable d f l {}
  let answer := Answer.ofOutcome outcome
  ⟨answer, s.records.reverse ++
    [⟨.trace, .solver, s!"{answer.name} after {s.branches} branches"⟩]⟩

end PredicateStrength.Solver

namespace PredicateStrength

/-- A satisfiability test under limits, with what it reports. Whoever uses one relies on its
refutations only. -/
structure Solver where
  name : String
  check : Domain → Solver.Limits → Formula → Logged Solver.Answer

namespace Solver

/-- Case splits and elimination. -/
def elimination : Solver := ⟨"fourier-motzkin", solve⟩

/-- A solver that gives one answer to everything. -/
def constant (name : String) (a : Answer) : Solver := ⟨name, fun _ _ _ => pure a⟩

end Solver
end PredicateStrength
