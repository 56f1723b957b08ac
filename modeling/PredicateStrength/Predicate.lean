import PredicateStrength.Expr.Canonical
import PredicateStrength.Expr.Parser

/-!
A predicate in every form that it goes through between its text and its canonical tree.
-/
namespace PredicateStrength

structure Predicate where
  source : String
  /-- The text after the surface substitutions. -/
  expanded : String
  parsed : Expr
  canonical : Expr
deriving DecidableEq

namespace Predicate

/-- Substitute, read and bring to canonical form. Errors refer to the substituted text. -/
def read (expand : String → String) (source : String) : Except PredicateError Predicate := do
  let parsed ← Expr.ofText (expand source)
  return ⟨source, expand source, parsed, parsed.canonical⟩

/-- What reading the predicate reports. -/
def log (p : Predicate) : List LogRecord :=
  p.parsed.canonicalLog ++ [⟨.debug, .reading, s!"{quoted p.source} => {p.canonical.text}"⟩]

end Predicate
end PredicateStrength
