import PredicateStrength.Formula.Merge
import PredicateStrength.Formula.OfExpr
import PredicateStrength.Log

/-!
Simplified formulas: constants folded, negations pushed to the atoms, nested junctions joined,
duplicates and absorbed operands dropped, complementary operands resolved, and the bounds on one
polynomial merged.
-/
namespace PredicateStrength

namespace Formula

mutual
/-- The negation, pushed inward as far as it goes; a negated formula inside loses its sign and is
left as it is. -/
def negate : Formula → Formula
  | .const b => .const !b
  | .not f => f
  | .constraint c => c.negate
  | .and fs => .or (negateAll fs)
  | .or fs => .and (negateAll fs)
  | .prop a => .not (.prop a)

def negateAll : List Formula → List Formula
  | [] => []
  | f :: fs => f.negate :: negateAll fs
end

theorem negateAll_eq_map (fs : List Formula) : negateAll fs = fs.map negate := by
  induction fs with
  | nil => rfl
  | cons f fs ih => rw [negateAll, ih, List.map_cons]

def isConst (value : Bool) : Formula → Bool
  | .const b => b = value
  | _ => false

end Formula

/-- The two ways to join formulas. -/
inductive Junction where
  | all
  | any
deriving DecidableEq, Repr

namespace Junction
open Formula

/-- The value of the junction of nothing. -/
def unit : Junction → Bool
  | .all => true
  | .any => false

/-- The junction of some formulas. -/
def join : Junction → List Formula → Formula
  | .all => .and
  | .any => .or

/-- The operands of a formula that is this junction. -/
def parts? : Junction → Formula → Option (List Formula)
  | .all, .and fs => some fs
  | .any, .or fs => some fs
  | _, _ => none

/-- The operands of a formula that is the other junction. -/
def dualParts? : Junction → Formula → Option (List Formula)
  | .all, .or fs => some fs
  | .any, .and fs => some fs
  | _, _ => none

/-- Operands without constants that say nothing, those of nested junctions in their place; `none`
if one operand alone settles the junction. -/
def flatten? (j : Junction) : List Formula → Option (List Formula)
  | [] => some []
  | .const b :: fs => if b = j.unit then j.flatten? fs else none
  | f :: fs => (j.flatten? fs).map (((j.parts? f).getD [f]) ++ ·)

/-- Some operand is the negation of another. -/
def isComplementary (fs : List Formula) : Bool :=
  fs.any fun
    | .not f => f ∈ fs
    | _ => false

/-- The operands less those of the other junction that share an operand with this one: `p` absorbs
`p || q` in a conjunction, and `p && q` in a disjunction. -/
def absorb (j : Junction) (fs : List Formula) : List Formula :=
  fs.filter fun f => !((j.dualParts? f).any fun gs => gs.any (· ∈ fs))

/-- The constraints among the operands. -/
def constraints (fs : List Formula) : List Constraint :=
  fs.filterMap fun
    | .constraint c => some c
    | _ => none

/-- The operands that are no constraints. -/
def others (fs : List Formula) : List Formula :=
  fs.filter fun
    | .constraint _ => false
    | _ => true

/-- Constraints in ascending order as one list of bounds for each polynomial. -/
def group : List Constraint → List (Poly × List Bound)
  | [] => []
  | c :: cs =>
    match group cs with
    | [] => [(c.poly, [c.bound])]
    | (p, bs) :: rest =>
      if c.poly = p then (p, c.bound :: bs) :: rest else (c.poly, [c.bound]) :: (p, bs) :: rest

/-- The bounds merged as the junction says. -/
def merge (j : Junction) (nonneg : Bool) (bs : List Bound) : Merged :=
  match j with
  | .all => Bound.intersect nonneg bs
  | .any => Bound.unite nonneg bs

/-- The constraints of all groups after merging; `none` if a group alone settles the junction. -/
def mergeGroups? (j : Junction) (d : Domain) : List (Poly × List Bound) → Option (List Formula)
  | [] => some []
  | (p, bs) :: rest => do
    let cs ←
      match j.merge (d = .unsigned && p.isNonneg) bs with
      | .always => if j.unit then some [] else none
      | .never => if j.unit then none else some []
      | .bounds bs => some (bs.map fun b => .constraint ⟨p, b⟩)
    return cs ++ (← j.mergeGroups? d rest)

/-- The junction of operands that are left; one operand stands alone. -/
def ofOperands (j : Junction) : List Formula → Formula
  | [] => .const j.unit
  | [f] => f
  | fs => j.join fs

/-- The junction of simplified operands. -/
def combine (j : Junction) (d : Domain) (parts : List Formula) : Formula :=
  match j.flatten? parts with
  | none => .const !j.unit
  | some flat =>
    let operands := Sorting.sortDistinct Formula.cmp flat
    if isComplementary operands then .const !j.unit
    else
      let operands := j.absorb operands
      match j.mergeGroups? d (group (constraints operands)) with
      | none => .const !j.unit
      | some merged => j.ofOperands (Sorting.sort Formula.cmp (others operands ++ merged))

end Junction

namespace Formula

mutual
/-- One round of simplification, operands first. -/
def step (d : Domain) : Formula → Formula
  | .const b => .const b
  | .prop a => .prop a
  | .constraint c =>
    match c.decide? d with
    | some b => .const b
    | none => .constraint c
  | .not f => (step d f).negate
  | .and fs => Junction.all.combine d (stepAll d fs)
  | .or fs => Junction.any.combine d (stepAll d fs)

def stepAll (d : Domain) : List Formula → List Formula
  | [] => []
  | f :: fs => step d f :: stepAll d fs
end

theorem stepAll_eq_map (d : Domain) (fs : List Formula) : stepAll d fs = fs.map (step d) := by
  induction fs with
  | nil => rfl
  | cons f fs ih => rw [stepAll, ih, List.map_cons]

/-- Rounds until one changes nothing, at most `n`. -/
def steps (d : Domain) : Nat → Formula → Formula
  | 0, f => f
  | n + 1, f => if f.step d = f then f else steps d n (f.step d)

/-- Merging bounds can make room for another round. -/
def maxRounds : Nat := 8

/-- The simplified formula. -/
def simplify (d : Domain) (f : Formula) : Formula := f.steps d maxRounds

/-- The records of `steps d n f`, the first of which has number `i`. -/
def stepsLog (d : Domain) (i : Nat) : Nat → Formula → List LogRecord
  | 0, _ => []
  | n + 1, f =>
    if f.step d = f then []
    else ⟨.trace, .simplifier, s!"round {i}: {(f.step d).text}"⟩ :: stepsLog d (i + 1) n (f.step d)

/-- What simplifying reports. -/
def simplifyLog (d : Domain) (f : Formula) : List LogRecord := f.stepsLog d 0 maxRounds

end Formula

namespace Symbolic

/-- A formula simplified; a polynomial is simple as it is. -/
def simplify (d : Domain) : Symbolic → Symbolic
  | .formula f => .formula (f.simplify d)
  | .term p => .term p

/-- What simplifying reports. -/
def simplifyLog (d : Domain) : Symbolic → List LogRecord
  | .formula f => f.simplifyLog d
  | .term _ => []

end Symbolic

namespace Expr

/-- The tree of the simplified formula, or of the polynomial of an arithmetic tree. -/
def simplify (d : Domain) (e : Expr) : Conversion.Attempt Expr := do
  return ((← e.toSymbolic).simplify d).toExpr

/-- What simplifying a tree reports; nothing if it has no formula. -/
def simplifyLog (d : Domain) (e : Expr) : List LogRecord :=
  match e.toSymbolic with
  | ⟨.ok s, issues⟩ =>
    issues.map (fun i => ⟨.debug, .simplifier, "kept opaque: " ++ i.message⟩) ++ s.simplifyLog d
  | ⟨.error _, _⟩ => []

end Expr
end PredicateStrength
