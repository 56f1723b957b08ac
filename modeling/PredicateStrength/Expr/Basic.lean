import PredicateStrength.Operator

/-!
Predicates and terms as trees. One type holds both; which of them a tree is shows only where it
is used.
-/
namespace PredicateStrength

/-- A predicate or a term. -/
inductive Expr where
  /-- A name, possibly a dotted member path such as `msg.sender`. -/
  | ident (name : String)
  /-- A numeral as written: `10`, `0.5`, `1e18`, `0xff`. -/
  | num (text : String)
  | bool (value : Bool)
  | not (e : Expr)
  | neg (e : Expr)
  /-- Two operands when read from text; canonical forms join any number. -/
  | op (o : Operator) (args : List Expr)
  | call (callee : Expr) (args : List Expr)
  | index (base key : Expr)
  | member (base : Expr) (field : String)

instance : Inhabited Expr := ⟨.bool true⟩

namespace Expr

/-- A use of an operator with two operands. -/
def binary (o : Operator) (lhs rhs : Expr) : Expr := .op o [lhs, rhs]

/-- A call of a plain name. -/
def apply (name : String) (args : List Expr) : Expr := .call (.ident name) args

/-- The name that is called, if the callee is a plain name. -/
def callName? : Expr → Option String
  | .call (.ident name) _ => some name
  | _ => none

/-- Operator and operands of a comparison of exactly two operands. -/
def relation? : Expr → Option (Operator × Expr × Expr)
  | .op o [lhs, rhs] => if o.isRelational then some (o, lhs, rhs) else none
  | _ => none

/-- The operands joined by `o` at the root; a tree with another root is its own one operand. -/
def operands (o : Operator) : Expr → List Expr
  | .op p args => if p = o then args else [.op p args]
  | e => [e]

/-- The value is a truth value by the shape of the root alone. -/
def isBoolean : Expr → Bool
  | .bool _ | .not _ => true
  | .op o _ => o.isRelational || o.isLogical
  | _ => false

/-- The value is a number by the shape of the root alone; names and calls can be either. -/
def isArithmetic : Expr → Bool
  | .num _ | .neg _ => true
  | .op o _ => !o.isRelational && !o.isLogical
  | _ => false

mutual
/-- Whether the arithmetic around this node can leave the unsigned range. Calls, reads and
numerals cannot; a subtraction or negation reached through arithmetic operators can. -/
def mayBeNegative : Expr → Bool
  | .neg _ => true
  | .op .sub _ => true
  | .op o args => !o.isRelational && !o.isLogical && anyMayBeNegative args
  | _ => false

/-- Whether one of the operands can leave the unsigned range. -/
def anyMayBeNegative : List Expr → Bool
  | [] => false
  | e :: es => e.mayBeNegative || anyMayBeNegative es
end

end Expr
end PredicateStrength
