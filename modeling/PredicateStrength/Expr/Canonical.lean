import PredicateStrength.Expr.Numeric
import PredicateStrength.Expr.Order
import PredicateStrength.Expr.Printer
import PredicateStrength.Log

/-!
The canonical form of a tree: the same for trees that differ in the order and grouping of
commutative and associative operands, in trivial identities and in known idioms.

Nine passes make a round; each is one local rule carried through the tree from the leaves up.
Rounds are repeated until one changes nothing, a few times at most.
-/
namespace PredicateStrength

namespace Expr

mutual
/-- The tree with `rule` applied at every node, children first. -/
def bottomUp (rule : Expr → Expr) : Expr → Expr
  | .ident name => rule (.ident name)
  | .num digits => rule (.num digits)
  | .bool b => rule (.bool b)
  | .not e => rule (.not (bottomUp rule e))
  | .neg e => rule (.neg (bottomUp rule e))
  | .op o args => rule (.op o (bottomUpAll rule args))
  | .call f args => rule (.call (bottomUp rule f) (bottomUpAll rule args))
  | .index base key => rule (.index (bottomUp rule base) (bottomUp rule key))
  | .member base field => rule (.member (bottomUp rule base) field)

/-- Every tree of a list with `rule` applied at every node. -/
def bottomUpAll (rule : Expr → Expr) : List Expr → List Expr
  | [] => []
  | e :: es => bottomUp rule e :: bottomUpAll rule es
end

theorem bottomUpAll_eq_map (rule : Expr → Expr) (es : List Expr) :
    bottomUpAll rule es = es.map (bottomUp rule) := by
  induction es with
  | nil => rfl
  | cons e es ih => rw [bottomUpAll, ih, List.map_cons]

end Expr

namespace Canonical
open PredicateStrength.Expr

/-- Calls without arguments that stand for a fixed tree. -/
def localIdioms : List (String × Expr) :=
  [("isOwner", .binary .eq (.ident "msg.sender") (.apply "owner" [])),
    ("isAdmin", .binary .eq (.ident "msg.sender") (.ident "admin")),
    ("_msgSender", .ident "msg.sender")]

/-- A local idiom becomes the tree that it stands for. -/
def expandIdiom : Expr → Expr
  | .call (.ident name) [] => (localIdioms.lookup name).getD (.call (.ident name) [])
  | e => e

/-- A comparison for (in)equality with a truth value becomes the other operand or its negation. -/
def foldBoolEquality : Expr → Expr
  | .op .eq [.bool b, e] => if b then e else .not e
  | .op .eq [e, .bool b] => if b then e else .not e
  | .op .ne [.bool b, e] => if b then .not e else e
  | .op .ne [e, .bool b] => if b then .not e else e
  | e => e

/-- Two negations cancel. -/
def dropDoubleNegation : Expr → Expr
  | .not (.not e) => e
  | e => e

/-- Take the subtractions off the root of `side`, and add what they subtract to `other`. -/
def moveSubtrahends : (side other : Expr) → Expr × Expr
  | .op .sub [a, b], other => moveSubtrahends a (.binary .add other b)
  | side, other => (side, other)

/-- In a comparison no operand is a difference: the subtrahend moves to the other side. The right
operand goes first; what receives a subtrahend is a sum and stays. -/
def shiftSubtraction : Expr → Expr
  | .op o [lhs, rhs] =>
    if o.isRelational then
      let (rhs, lhs) := moveSubtrahends rhs lhs
      let (lhs, rhs) := moveSubtrahends lhs rhs
      .op o [lhs, rhs]
    else .op o [lhs, rhs]
  | e => e

/-- Operands that use the same operator are replaced by their own operands. -/
def splice (o : Operator) (args : List Expr) : List Expr := args.flatMap (operands o)

/-- Nested uses of an associative operator are joined. -/
def flatten : Expr → Expr
  | .op o args => .op o (if o.isAssociative then splice o args else args)
  | e => e

/-- Sums are joined and their operands put in order. -/
def normalizeSum : Expr → Expr
  | .op .add args => .op .add (sorted (splice .add args))
  | e => e

/-- The operands of commutative operators are put in order. -/
def sortCommutative : Expr → Expr
  | .op o args => .op o (if o.isCommutative then sorted args else args)
  | e => e

/-- The two operands of an (in)equality are put in order. -/
def orderEquality : Expr → Expr
  | .op .eq [a, b] => if cmp b a = .lt then .op .eq [b, a] else .op .eq [a, b]
  | .op .ne [a, b] => if cmp b a = .lt then .op .ne [b, a] else .op .ne [a, b]
  | e => e

/-- Masks of a single flag, and the predicate that tests the flag. -/
def flagIdioms : List (String × String) :=
  [("MarketplaceLib.FLAG_MASK_FINALIZED", "MarketplaceLib.isFinalized")]

/-- The flag test that a masked value stands for. -/
def flagTest? : Expr → Option Expr
  | .op .bitAnd [a, b] =>
    flagIdioms.findSome? fun (mask, predicate) =>
      if b = .ident mask then some (.apply predicate [a])
      else if a = .ident mask then some (.apply predicate [b])
      else none
  | _ => none

/-- The operand that is compared with zero. -/
def comparedWithZero? (a b : Expr) : Option Expr :=
  if b.isZeroLiteral then some a else if a.isZeroLiteral then some b else none

/-- A masked value compared with zero becomes the flag test or its negation. -/
def expandFlag : Expr → Expr
  | .op .eq [a, b] =>
    (((comparedWithZero? a b).bind flagTest?).map Expr.not).getD (.op .eq [a, b])
  | .op .ne [a, b] => ((comparedWithZero? a b).bind flagTest?).getD (.op .ne [a, b])
  | e => e

/-- A local rule and the name under which it reports. -/
structure Pass where
  name : String
  rule : Expr → Expr

/-- The rule carried through the tree. -/
def Pass.run (p : Pass) : Expr → Expr := bottomUp p.rule

/-- The passes of a round. Later ones rely on the form that earlier ones leave. -/
def passes : List Pass :=
  [⟨"local-idioms", expandIdiom⟩,
    ⟨"bool-equality", foldBoolEquality⟩,
    ⟨"double-negation", dropDoubleNegation⟩,
    ⟨"subtraction-shift", shiftSubtraction⟩,
    ⟨"flatten", flatten⟩,
    ⟨"additive", normalizeSum⟩,
    ⟨"commutative-sort", sortCommutative⟩,
    ⟨"relation-operands", orderEquality⟩,
    ⟨"flag-idioms", expandFlag⟩]

/-- All passes in turn. -/
def round (e : Expr) : Expr := passes.foldl (fun e p => p.run e) e

/-- Rounds until one changes nothing, at most `n`. -/
def rounds : Nat → Expr → Expr
  | 0, e => e
  | n + 1, e => if round e = e then e else rounds n (round e)

/-- A flag test can leave a double negation or operands out of order; a further round settles
them. -/
def maxRounds : Nat := 4

/-- The tree after each pass of a round. -/
def roundLog : List Pass → Expr → List LogRecord
  | [], _ => []
  | p :: ps, e => ⟨.trace, .canonical, s!"{p.name}: {(p.run e).text}"⟩ :: roundLog ps (p.run e)

/-- The records of `rounds n e`, the first of which has number `i`. -/
def roundsLog (i : Nat) : Nat → Expr → List LogRecord
  | 0, _ => []
  | n + 1, e =>
    roundLog passes e ++
      if round e = e then []
      else ⟨.debug, .canonical, s!"round {i}: {(round e).text}"⟩ :: roundsLog (i + 1) n (round e)

end Canonical

namespace Expr

/-- The canonical form of a tree. -/
def canonical (e : Expr) : Expr := Canonical.rounds Canonical.maxRounds e

/-- What computing the canonical form reports. -/
def canonicalLog (e : Expr) : List LogRecord := Canonical.roundsLog 0 Canonical.maxRounds e

end Expr
end PredicateStrength
