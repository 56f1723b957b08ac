import Mathlib
import PredicateStrength.Expr.Numeric
import PredicateStrength.Proofs.Expr.Meaning
import PredicateStrength.Proofs.Numeral

/-!
# The value of trees in a world

A world assigns to each place that a tree can name a number and a truth value, and the tree is read
as the one or the other by where it stands. So every tree has a number and a truth value in every
world, whatever its sorts are: a truth value counts as `0` or `1`, and a number is true if it is
not zero. Arithmetic is that of the integers; `/` and `%` round toward zero, with `x / 0 = 0` and
`x % 0 = x`. Idiom calls are calls like all others here.

Main statements: an integer written as a tree has that number (`number_ofInt`, `number_ofRat`).
-/
namespace PredicateStrength

/-- The place that a tree names, its number and its truth value. -/
structure Reading where
  place : Place Int
  number : Int
  truth : Bool

namespace Reading

def ofNumber (n : Int) : Reading := ⟨.value (.num n), n, n ≠ 0⟩

def ofTruth (b : Bool) : Reading := ⟨.value (.bool b), if b then 1 else 0, b⟩

@[simp] theorem number_ofNumber (n : Int) : (ofNumber n).number = n := rfl

@[simp] theorem truth_ofTruth (b : Bool) : (ofTruth b).truth = b := rfl

end Reading

/-- A number and a truth value for every place. The other fields hold what arithmetic leaves open:
numerals that denote no integer, the operators `& | ^`, and powers with a negative exponent. -/
structure World where
  number : Place Int → Int
  truth : Place Int → Bool
  numeral : String → Int
  other : Operator → Int → Int → Int
  numeral_eq : ∀ digits (n : Int), Numeral.value? digits = some (n : ℚ) → numeral digits = n

namespace World

/-- What arithmetic leaves open is zero. -/
def ofPlaces (number : Place Int → Int) (truth : Place Int → Bool) : World where
  number := number
  truth := truth
  numeral digits := ((Numeral.value? digits).map Rat.num).getD 0
  other _ _ _ := 0
  numeral_eq digits n value := by rw [value, Option.map_some, Option.getD_some, Rat.num_intCast]

variable (W : World)

/-- What stands at a place. -/
def readAt (p : Place Int) : Reading := ⟨p, W.number p, W.truth p⟩

/-- The arithmetic of two numbers. -/
def arith (o : Operator) (m n : Int) : Int :=
  match o with
  | .sub => m - n
  | .div => m.tdiv n
  | .mod => m.tmod n
  | .pow => if 0 ≤ n then m ^ n.toNat else W.other .pow m n
  | o => W.other o m n

theorem arith_pow (m : Int) (n : Nat) : W.arith .pow m n = m ^ n := by
  simp [arith]

/-- The value of an operation. Both sides of a comparison are numbers. -/
def operate (o : Operator) (rs : List Reading) : Reading :=
  match o, rs with
  | .and, rs => .ofTruth (rs.all Reading.truth)
  | .or, rs => .ofTruth (rs.any Reading.truth)
  | .add, rs => .ofNumber (rs.map Reading.number).sum
  | .mul, rs => .ofNumber (rs.map Reading.number).prod
  | o, [r, s] =>
    if o.isRelational then .ofTruth (relate o r.number s.number)
    else .ofNumber (W.arith o r.number s.number)
  | _, _ => .ofNumber 0

mutual
/-- What the tree stands for. Arguments and keys are numbers. -/
def eval : Expr → Reading
  | .ident name => W.readAt (.name name)
  | .num digits => .ofNumber (W.numeral digits)
  | .bool b => .ofTruth b
  | .not e => .ofTruth (!(eval e).truth)
  | .neg e => .ofNumber (-(eval e).number)
  | .op o args => W.operate o (evalAll args)
  | .call f args => W.readAt (.call (eval f).place ((evalAll args).map fun r => .num r.number))
  | .index base key => W.readAt (.index (eval base).place (.num (eval key).number))
  | .member base field => W.readAt (.member (eval base).place field)

def evalAll : List Expr → List Reading
  | [] => []
  | e :: es => eval e :: evalAll es
end

theorem evalAll_eq_map (es : List Expr) : W.evalAll es = es.map W.eval := by
  induction es with
  | nil => rfl
  | cons e es ih => rw [evalAll, ih, List.map_cons]

/-- The numbers of trees. -/
def numbers (es : List Expr) : List Int := (W.evalAll es).map Reading.number

@[simp] theorem numbers_nil : W.numbers [] = [] := rfl

@[simp] theorem numbers_cons (e : Expr) (es : List Expr) :
    W.numbers (e :: es) = (W.eval e).number :: W.numbers es := rfl

theorem numbers_append (es fs : List Expr) :
    W.numbers (es ++ fs) = W.numbers es ++ W.numbers fs := by
  simp [numbers, evalAll_eq_map]

theorem number_numeral (n : Nat) : (W.eval (.num (toString n))).number = n := by
  have value := Numeral.value?_of_isDigits (Numeral.isDigits_toString n)
  rw [Numeral.amount_toString] at value
  exact W.numeral_eq _ n value

theorem number_ofInt (n : Int) : (W.eval (.ofInt n)).number = n := by
  have magnitude := W.number_numeral n.natAbs
  unfold Expr.ofInt
  split
  · show -(W.eval (.num (toString n.natAbs))).number = n
    omega
  · omega

theorem number_ofRat {q : ℚ} (integer : q.den = 1) : (W.eval (.ofRat q)).number = q.num := by
  rw [Expr.ofRat, if_pos integer, number_ofInt]

end World
end PredicateStrength
