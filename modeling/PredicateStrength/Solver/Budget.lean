import PredicateStrength.Log

/-!
Computations on a budget: they count branches, ask now and then whether they may go on, and end
early when a limit is reached. Reaching a limit is an outcome of its own, never an answer.
-/
namespace PredicateStrength.Solver

structure Limits where
  /-- Branches tried before giving up. -/
  maxBranches : Nat := 4096
  /-- Inequalities kept at one time. -/
  maxRows : Nat := 2048
  /-- The outcome of each request to go on, by its number: `false` once the time is up or the work
  is cancelled. -/
  alive : Nat → Bool := fun _ => true

namespace Limits

/-- No request to go on is granted. -/
def interrupted (l : Limits) : Limits := { l with alive := fun _ => false }

end Limits

/-- What a computation has used up and reported so far, the latest record first. -/
structure Progress where
  branches : Nat := 0
  requests : Nat := 0
  records : List LogRecord := []

/-- A computation that may run out of its budget; then it has no value. -/
def Budgeted (α : Type) : Type := Limits → Progress → Option α × Progress

namespace Budgeted

variable {α β : Type}

instance : Monad Budgeted where
  pure a := fun _ s => (some a, s)
  bind x f := fun l s =>
    match x l s with
    | (some a, s') => f a l s'
    | (none, s') => (none, s')

theorem run_pure (a : α) (l : Limits) (s : Progress) : (pure a : Budgeted α) l s = (some a, s) :=
  rfl

theorem run_bind (x : Budgeted α) (f : α → Budgeted β) (l : Limits) (s : Progress) :
    (x >>= f) l s =
      match x l s with
      | (some a, s') => f a l s'
      | (none, s') => (none, s') := rfl

/-- Ask whether to go on. -/
def requireAlive : Budgeted Unit := fun l s =>
  (if l.alive s.requests then some () else none, { s with requests := s.requests + 1 })

/-- Start another branch. -/
def startBranch : Budgeted Unit := fun l s =>
  let s := { s with branches := s.branches + 1 }
  if l.maxBranches < s.branches then (none, s) else requireAlive l s

/-- Make a record. -/
def report (r : LogRecord) : Budgeted Unit := fun _ s =>
  (some (), { s with records := r :: s.records })

/-- The first computation, and the second one if the first says no. -/
def orElse (x y : Budgeted Bool) : Budgeted Bool := do
  if ← x then return true else y

end Budgeted
end PredicateStrength.Solver
