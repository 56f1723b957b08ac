import PredicateStrength.Expr.Numeric
import PredicateStrength.Expr.Order

/-!
Five sound tests for "the first predicate implies the second" on canonical trees. A test may miss
an implication; it never claims a false one.
-/
namespace PredicateStrength

/-- The end of a real interval; a closed one belongs to the interval. -/
structure Region.End where
  value : Rat
  closed : Bool

/-- The reals that a comparison with a literal admits. -/
inductive Region where
  /-- The reals between two ends; a missing end is unbounded. -/
  | interval (lo hi : Option Region.End)
  | allBut (value : Rat)

namespace Region

/-- The reals `x` with `x o value`. -/
def ofComparison (o : Operator) (value : Rat) : Region :=
  match o with
  | .lt => .interval none (some ⟨value, false⟩)
  | .le => .interval none (some ⟨value, true⟩)
  | .gt => .interval (some ⟨value, false⟩) none
  | .ge => .interval (some ⟨value, true⟩) none
  | .eq => .interval (some ⟨value, true⟩) (some ⟨value, true⟩)
  | _ => .allBut value

/-- `x` lies above the end, or at it if it is closed. -/
def End.below (e : End) (x : Rat) : Bool := e.value < x || e.closed && e.value = x

/-- `x` lies below the end, or at it if it is closed. -/
def End.above (e : End) (x : Rat) : Bool := x < e.value || e.closed && e.value = x

def contains : Region → Rat → Bool
  | .allBut value, x => value ≠ x
  | .interval lo hi, x => lo.all (·.below x) && hi.all (·.above x)

/-- A lower end that admits no more than the lower end `outer`. -/
def lowerWithin : (inner outer : Option End) → Bool
  | _, none => true
  | none, some _ => false
  | some i, some o => o.value < i.value || i.value = o.value && (o.closed || !i.closed)

/-- An upper end that admits no more than the upper end `outer`. -/
def upperWithin : (inner outer : Option End) → Bool
  | _, none => true
  | none, some _ => false
  | some i, some o => i.value < o.value || i.value = o.value && (o.closed || !i.closed)

/-- Every real of the first region, if that is seen from the ends, lies in the second. -/
def within : (inner outer : Region) → Bool
  | .allBut x, .allBut y => x = y
  | .allBut _, .interval _ _ => false
  | inner, .allBut y => !inner.contains y
  | .interval lo hi, .interval lo' hi' => lowerWithin lo lo' && upperWithin hi hi'

end Region

namespace Rule
open PredicateStrength.Expr

/-- `a o b` implies `a p b`, whatever `a` and `b` are. -/
def operatorImplies (o p : Operator) : Bool :=
  o = p || match o, p with
    | .lt, .le | .lt, .ne | .gt, .ge | .gt, .ne | .eq, .le | .eq, .ge => true
    | _, _ => false

/-- The same two operands, and an operator that implies the other as seen in the same order. -/
def relationalStrength (a b : Expr) : Bool :=
  match a.relation?, b.relation? with
  | some (o, al, ar), some (p, bl, br) =>
    if al = bl ∧ ar = br then operatorImplies o p
    else if al = br ∧ ar = bl then operatorImplies o p.mirrored
    else false
  | _, _ => false

/-- A comparison of a term with a literal: the term, and the values that the literal leaves it. -/
def boundedTerm? (e : Expr) : Option (Expr × Region) :=
  match e.relation? with
  | none => none
  | some (o, lhs, rhs) =>
    match lhs.literalValue?, rhs.literalValue? with
    | none, some v => some (lhs, .ofComparison o v)
    | some v, _ => some (rhs, .ofComparison o.mirrored v)
    | none, none => none

/-- The same term between tighter literal bounds. -/
def literalBound (a b : Expr) : Bool :=
  match boundedTerm? a, boundedTerm? b with
  | some (s, r), some (t, q) => s = t && r.within q
  | _, _ => false

/-- A conjunction implies each of its operands. -/
def conjunctionElimination (a b : Expr) : Bool :=
  match a with
  | .op .and args => (b.operands .and).all fun x => x ∈ args
  | _ => false

/-- An operand implies a disjunction. -/
def disjunctionIntroduction (a b : Expr) : Bool :=
  match b with
  | .op .or args => (a.operands .or).all fun x => x ∈ args
  | _ => false

/-- Equal trees, or trees that one of the two comparison rules relates. -/
def directlyImplies (a b : Expr) : Bool := a = b || relationalStrength a b || literalBound a b

mutual
/-- `reaches` holds of the tree or of a disjunct of it, at any depth. -/
def reachesDisjunct (reaches : Expr → Bool) : Expr → Bool
  | .op .or ds => reaches (.op .or ds) || reachesSomeDisjunct reaches ds
  | e => reaches e

/-- `reaches` holds of one of the trees or of a disjunct of one. -/
def reachesSomeDisjunct (reaches : Expr → Bool) : List Expr → Bool
  | [] => false
  | e :: es => reachesDisjunct reaches e || reachesSomeDisjunct reaches es
end

mutual
/-- One clause implies another: directly, by one of the other's disjuncts, or because each of its
own disjuncts does. -/
def clauseImplies : Expr → Expr → Bool
  | .op .or ds, b => reachesDisjunct (fun b => directlyImplies (.op .or ds) b || allImply ds b) b
  | a, b => reachesDisjunct (directlyImplies a) b

/-- Every clause of the list implies `b`. -/
def allImply : List Expr → Expr → Bool
  | [], _ => true
  | a :: as, b => clauseImplies a b && allImply as b
end

/-- Each clause of the conclusion is implied by some clause of the premise. -/
def clauseSubsumption (a b : Expr) : Bool :=
  (b.operands .and).all fun goal => (a.operands .and).any fun premise => clauseImplies premise goal

end Rule

/-- A named test for implication. -/
structure Rule where
  name : String
  implies : Expr → Expr → Bool

/-- The rules, in the order in which they are tried. -/
def Rule.all : List Rule :=
  [⟨"relational-strength", relationalStrength⟩,
    ⟨"literal-bound", literalBound⟩,
    ⟨"conjunction-elimination", conjunctionElimination⟩,
    ⟨"disjunction-introduction", disjunctionIntroduction⟩,
    ⟨"clause-subsumption", clauseSubsumption⟩]

end PredicateStrength
