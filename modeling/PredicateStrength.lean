import PredicateStrength.Main
import PredicateStrength.NameTable
import PredicateStrength.Proofs.Comparison
import PredicateStrength.Proofs.Expr.Grammar
import PredicateStrength.Proofs.Formula.Exact
import PredicateStrength.Proofs.Numeral
import PredicateStrength.Proofs.Substitution
import PredicateStrength.Proofs.Token.Lexing
import PredicateStrength.Proofs.Unit.Expansion
import PredicateStrength.Proofs.Expr.Defect
import PredicateStrength.Proofs.Expr.Invariance
import PredicateStrength.Proofs.Expr.Normal
import PredicateStrength.Proofs.Formula.MergedBounds
import PredicateStrength.Proofs.Formula.Junction
import PredicateStrength.Proofs.Formula.Depth
import PredicateStrength.Proofs.Expr.Reading
import PredicateStrength.Proofs.Token.Splitting
import PredicateStrength.Proofs.Expr.Printing
import PredicateStrength.Proofs.Expr.Nesting
import PredicateStrength.Proofs.Expr.RoundTrip
import PredicateStrength.Proofs.Expr.Derivation
import PredicateStrength.Proofs.Solver.BackSubstitution
import PredicateStrength.Proofs.Solver.Witness
import PredicateStrength.Proofs.RuleRefutation
import PredicateStrength.Proofs.NameBounds
import PredicateStrength.Proofs.Expr.Ranking
import PredicateStrength.Proofs.Formula.RenamedMeaning
import PredicateStrength.Proofs.Formula.Renaming
import PredicateStrength.Proofs.Solver.Renaming
import PredicateStrength.Proofs.Interruption
import PredicateStrength.Proofs.Solver.RelaxedModel
import PredicateStrength.Proofs.Expr.RenamedText
import PredicateStrength.Proofs.Renaming
import PredicateStrength.Proofs.Expr.Height
import PredicateStrength.Proofs.Expr.Reduced
import PredicateStrength.Proofs.Formula.MergedExactly
import PredicateStrength.Proofs.Formula.NormalForm
import PredicateStrength.Proofs.Formula.RoundTrip
import PredicateStrength.Proofs.Instance
import PredicateStrength.Proofs.NameTable
import PredicateStrength.Proofs.Formula.Relation
import PredicateStrength.Proofs.Formula.Overflow
import PredicateStrength.Proofs.Containment
import PredicateStrength.Proofs.Token.Lossless
import PredicateStrength.Proofs.Token.Number
import PredicateStrength.Proofs.Formula.DecodedMeaning
import PredicateStrength.Proofs.Overlap
import PredicateStrength.Proofs.Formula.Nonneg
import PredicateStrength.Proofs.Solver.Worklist
import PredicateStrength.Proofs.Solver.Rounds
import PredicateStrength.Proofs.Expr.Lookahead
import PredicateStrength.Proofs.Expr.ViablePrefix
