/-!
The relative strength of two predicates.
-/
namespace PredicateStrength

inductive Verdict where
  | equivalent
  | firstStronger
  | secondStronger
  /-- No relation could be established; that is no proof that there is none. -/
  | incomparable
  | error (reason : String)
deriving DecidableEq, Repr

namespace Verdict

/-- The verdict when the first implies the second (`forward`), and the second the first
(`backward`). -/
def ofDirections (forward backward : Bool) : Verdict :=
  match forward, backward with
  | true, true => .equivalent
  | true, false => .firstStronger
  | false, true => .secondStronger
  | false, false => .incomparable

/-- The verdict on the same two predicates in the other order. -/
def reversed : Verdict → Verdict
  | .firstStronger => .secondStronger
  | .secondStronger => .firstStronger
  | v => v

@[simp] theorem reversed_reversed (v : Verdict) : v.reversed.reversed = v := by cases v <;> rfl

theorem reversed_ofDirections (forward backward : Bool) :
    (ofDirections forward backward).reversed = ofDirections backward forward := by
  cases forward <;> cases backward <;> rfl

/-- A stable name of the kind of verdict. -/
def tag : Verdict → String
  | .equivalent => "equivalent"
  | .firstStronger => "first-stronger"
  | .secondStronger => "second-stronger"
  | .incomparable => "incomparable"
  | .error _ => "error"

def isError : Verdict → Bool
  | .error _ => true
  | _ => false

def text : Verdict → String
  | .equivalent => "The predicates are equivalent."
  | .firstStronger => "The first predicate is stronger."
  | .secondStronger => "The second predicate is stronger."
  | .incomparable => "The predicates are incomparable."
  | .error reason => "Error: " ++ reason

end Verdict
end PredicateStrength
