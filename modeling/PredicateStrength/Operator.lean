/-!
The binary operators of predicates, in ascending binding strength, with their spelling and the
algebra that canonical forms rely on.
-/
namespace PredicateStrength

/-- A binary operator; `and`, `or` and `add` may join more than two operands. -/
inductive Operator where
  | or
  | and
  | eq
  | ne
  | lt
  | le
  | gt
  | ge
  | bitOr
  | bitXor
  | bitAnd
  | add
  | sub
  | mul
  | div
  | mod
  | pow
deriving DecidableEq, Repr

namespace Operator

/-- Every operator, weakest binding first. -/
def all : List Operator :=
  [.or, .and, .eq, .ne, .lt, .le, .gt, .ge, .bitOr, .bitXor, .bitAnd, .add, .sub, .mul, .div,
    .mod, .pow]

/-- Operators are ordered as they are listed. -/
instance : Ord Operator := ⟨fun a b => compare a.ctorIdx b.ctorIdx⟩

/-- The spelling in predicate text. -/
def symbol : Operator → String
  | .or => "||"
  | .and => "&&"
  | .eq => "=="
  | .ne => "!="
  | .lt => "<"
  | .le => "<="
  | .gt => ">"
  | .ge => ">="
  | .bitOr => "|"
  | .bitXor => "^"
  | .bitAnd => "&"
  | .add => "+"
  | .sub => "-"
  | .mul => "*"
  | .div => "/"
  | .mod => "%"
  | .pow => "**"

/-- The operator spelled `s`, if there is one. -/
def ofSymbol? (s : String) : Option Operator :=
  all.find? fun o => o.symbol = s

theorem symbol_injective {a b : Operator} (h : a.symbol = b.symbol) : a = b := by
  revert h; cases a <;> cases b <;> simp [symbol]

@[simp] theorem ofSymbol?_symbol (o : Operator) : ofSymbol? o.symbol = some o := by
  cases o <;> decide

theorem ofSymbol?_eq_some_iff {s : String} {o : Operator} :
    ofSymbol? s = some o ↔ s = o.symbol := by
  constructor
  · intro h
    have hs : o.symbol = s := by simpa using List.find?_some h
    exact hs.symm
  · rintro rfl
    exact ofSymbol?_symbol o

/-- A comparison of two values. -/
def isRelational : Operator → Bool
  | .eq | .ne | .lt | .le | .gt | .ge => true
  | _ => false

/-- A connective of truth values. -/
def isLogical : Operator → Bool
  | .and | .or => true
  | _ => false

/-- Nested uses may be spliced into one. -/
def isAssociative : Operator → Bool
  | .and | .or | .add => true
  | _ => false

/-- The order of the operands does not matter. -/
def isCommutative : Operator → Bool
  | .and | .or | .eq | .ne | .add | .mul => true
  | _ => false

/-- The operator that holds with swapped operands: `a < b` exactly when `b > a`. -/
def mirrored : Operator → Operator
  | .lt => .gt
  | .le => .ge
  | .gt => .lt
  | .ge => .le
  | o => o

@[simp] theorem mirrored_mirrored (o : Operator) : o.mirrored.mirrored = o := by
  cases o <;> rfl

/-- Binding strength. The negations of truth values and numbers have the strengths 3 and 10. -/
def precedence : Operator → Nat
  | .or => 1
  | .and => 2
  | .eq | .ne | .lt | .le | .gt | .ge => 4
  | .bitOr => 5
  | .bitXor => 6
  | .bitAnd => 7
  | .add | .sub => 8
  | .mul | .div | .mod => 9
  | .pow => 11

end Operator
end PredicateStrength
