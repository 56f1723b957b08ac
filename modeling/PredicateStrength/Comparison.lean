import PredicateStrength.Formula.Simplify
import PredicateStrength.Predicate
import PredicateStrength.Rule
import PredicateStrength.Solver.Search
import PredicateStrength.Verdict

/-!
Comparing two predicates. Equal canonical trees are equivalent. Otherwise each direction is
settled by itself: by the rules, or by refuting that the first holds and the second does not. What
cannot be settled counts as no implication.

A comparison never fails; a predicate that cannot be read gives the verdict `error`.
-/
namespace PredicateStrength

/-- What settled that one predicate implies another. -/
inductive ImplicationProof where
  /-- The canonical trees are equal. -/
  | structural
  | rule (name : String)
  /-- Simplification refutes the counterexample. -/
  | simplifier
  /-- A solver refutes the counterexample. -/
  | solver (name : String)
deriving DecidableEq, Repr

def ImplicationProof.text : ImplicationProof → String
  | .structural => "structural"
  | .rule name => "rule:" ++ name
  | .simplifier => "simplifier"
  | .solver name => "solver:" ++ name

/-- A verdict and what stands behind it. -/
structure Comparison where
  verdict : Verdict
  first : Option Predicate := none
  second : Option Predicate := none
  /-- What settled that the first implies the second. -/
  forward : Option ImplicationProof := none
  /-- What settled that the second implies the first. -/
  backward : Option ImplicationProof := none
  /-- The parts that were compared as they stand. -/
  kept : List ConversionError := []

namespace Comparison

def failed (e : PredicateError) : Comparison := { verdict := .error e.message }

/-- The verdict that the two directions make. -/
def settled (p q : Predicate) (forward backward : Option ImplicationProof)
    (kept : List ConversionError) : Comparison where
  verdict := .ofDirections forward.isSome backward.isSome
  first := some p
  second := some q
  forward := forward
  backward := backward
  kept := kept

end Comparison

/-- What every comparison is carried out under. -/
structure Settings where
  /-- The surface substitutions. -/
  expand : String → String := id
  domain : Domain := .unsigned
  limits : Solver.Limits := {}
  /-- Report every step. -/
  verbose : Bool := false

/-- How directions are settled. -/
inductive Method where
  /-- By the rules alone. -/
  | rules
  /-- By simplification, and where that is not enough by a solver. -/
  | refutation (solver : Solver)

namespace Settings

/-- Read a predicate. -/
def read (settings : Settings) (source : String) : Logged (Except PredicateError Predicate) :=
  let result := Predicate.read settings.expand source
  ⟨result, match result with
    | .ok p => if settings.verbose then p.log else []
    | .error _ => []⟩

/-- The first rule by which `a` implies `b`. -/
def proveByRule (settings : Settings) (a b : Expr) : Logged (Option ImplicationProof) := do
  match Rule.all.find? fun r => r.implies a b with
  | some r =>
    Logged.report settings.verbose
      [⟨.debug, .rules, s!"{r.name} proves {a.text} => {b.text}"⟩]
    return some (.rule r.name)
  | none => return none

/-- Refute `f && !g`. -/
def refute (settings : Settings) (solver : Solver) (f g : Formula) :
    Logged (Option ImplicationProof) := do
  let counterexample := Formula.and [f, .not g]
  let query := counterexample.simplify settings.domain
  Logged.report settings.verbose
    (counterexample.simplifyLog settings.domain ++
      [⟨.debug, .comparison, "refuting " ++ query.text⟩])
  if query.isConst false then return some .simplifier
  else if query.isConst true then return none
  else
    let answer ← solver.check settings.domain settings.limits query
    Logged.report (settings.verbose || answer = .unknown)
      [⟨.debug, .comparison, s!"{solver.name} answered {answer.name}"⟩]
    return if answer = .unsat then some (.solver solver.name) else none

/-- Settle both directions for predicates that are not equal. -/
def settle (settings : Settings) (method : Method) (p q : Predicate) : Logged Comparison := do
  match method with
  | .rules =>
    let forward ← settings.proveByRule p.canonical q.canonical
    let backward ← settings.proveByRule q.canonical p.canonical
    return .settled p q forward backward []
  | .refutation solver =>
    match p.canonical.toFormula, q.canonical.toFormula with
    | ⟨.ok f, kept⟩, ⟨.ok g, kept'⟩ =>
      let forward ← settings.refute solver f g
      let backward ← settings.refute solver g f
      let comparison := Comparison.settled p q forward backward (kept ++ kept')
      Logged.report settings.verbose
        [⟨.debug, .comparison, s!"{quoted p.source} vs {quoted q.source}: " ++
          comparison.verdict.text⟩]
      return comparison
    | ⟨.error e, _⟩, _ => return .failed (.conversion e)
    | _, ⟨.error e, _⟩ => return .failed (.conversion e)

/-- Compare two predicates, with what stands behind the verdict. -/
def explain (settings : Settings) (method : Method) (first second : String) :
    Logged Comparison := do
  match ← settings.read first with
  | .error e => return .failed e
  | .ok p =>
    match ← settings.read second with
    | .error e => return .failed e
    | .ok q =>
      if p.canonical = q.canonical then
        return .settled p q (some .structural) (some .structural) []
      else settings.settle method p q

/-- Compare two predicates. -/
def compare (settings : Settings) (method : Method) (first second : String) : Verdict :=
  (settings.explain method first second).value.verdict

end Settings
end PredicateStrength
