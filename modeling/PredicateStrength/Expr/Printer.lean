import PredicateStrength.Expr.Basic

/-!
The text of a tree, with as few parentheses as the grammar of predicates allows. The trees that
reading returns are read back from their text.
-/
namespace PredicateStrength.Expr

/-- Binding strength of `!`. -/
def notPrecedence : Nat := 3

/-- Binding strength of unary `-`. -/
def negPrecedence : Nat := 10

/-- Binding strength of names, numerals, calls, reads and members. -/
def accessPrecedence : Nat := 12

/-- Binding strength of the root. -/
def precedence : Expr → Nat
  | .op o _ => o.precedence
  | .not _ => notPrecedence
  | .neg _ => negPrecedence
  | _ => accessPrecedence

/-- An operand needs parentheses below an operator that binds more tightly; in a tight position
also below one that binds equally. -/
def needsParens (e : Expr) (parent : Nat) (tight : Bool) : Bool :=
  e.precedence < parent || tight && e.precedence = parent

/-- The text `s` of the operand `e`, with the parentheses that its place asks for. -/
def enclose (e : Expr) (parent : Nat) (tight : Bool) (s : String) : String :=
  if e.needsParens parent tight then "(" ++ s ++ ")" else s

/-- Which operand places are tight: both sides of a comparison, since comparisons do not chain;
the first operand of `**`, which groups to the right; all but the first operand otherwise. -/
def isTightPlace (o : Operator) (isFirst : Bool) : Bool :=
  o.isRelational || (if o = .pow then isFirst else !isFirst)

mutual
/-- The text of a tree. -/
def text : Expr → String
  | .ident name => name
  | .num digits => digits
  | .bool b => if b then "true" else "false"
  | .not e => "!" ++ enclose e notPrecedence false (text e)
  | .neg e => "-" ++ enclose e negPrecedence true (text e)
  | .op o args => String.intercalate (" " ++ o.symbol ++ " ") (operandTexts o true args)
  | .call f args =>
    enclose f accessPrecedence false (text f) ++ "(" ++ String.intercalate ", " (texts args) ++ ")"
  | .index base key => enclose base accessPrecedence false (text base) ++ "[" ++ text key ++ "]"
  | .member base field => enclose base accessPrecedence false (text base) ++ "." ++ field

/-- The texts of the operands of `o`, in parentheses where needed. -/
def operandTexts (o : Operator) (isFirst : Bool) : List Expr → List String
  | [] => []
  | e :: es => enclose e o.precedence (isTightPlace o isFirst) (text e) :: operandTexts o false es

/-- The texts of call arguments, which never need parentheses. -/
def texts : List Expr → List String
  | [] => []
  | e :: es => text e :: texts es
end

instance : ToString Expr := ⟨text⟩

end PredicateStrength.Expr
