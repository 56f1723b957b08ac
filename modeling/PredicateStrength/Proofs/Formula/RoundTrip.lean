import Mathlib
import PredicateStrength.Proofs.Expr.Reading
import PredicateStrength.Proofs.Expr.Text
import PredicateStrength.Proofs.Formula.Decoding

/-!
# The tree of a formula is converted back to it

A comparison is written with each summand on the side where it is positive, so the difference of
the two sides is the polynomial less the bound again. From there on a formula is converted as it is
built. Trees that are read join at least two operands, so none of them is written as its operand.
A fraction inside an atom and a power above the limit come back as something else
(`Conversion.returns_of_ofTokens_ne`).

Main statement: `Conversion.returns_of_ofTokens`.
-/
namespace PredicateStrength

open Conversion
open PredicateStrength.Parser (Derives)

namespace Poly

theorem valueAt_const_mul (w : Monomial → Rat) (c : Rat) : (const c).valueAt w = c * w .unit := by
  rw [const]
  split
  · next zero => simp [zero, valueAt, Poly.zero]
  · simp [valueAt]

end Poly

namespace Expr

variable {es : List Expr} {vs : List ((Monomial → Rat) → Rat)}

theorem denotes_ofInt {n : Int} (nonneg : 0 ≤ n) :
    Denotes (ofInt n) fun w : Monomial → Rat => n * w .unit :=
  (convertsTo_ofInt nonneg).denotes fun w => Poly.valueAt_const_mul w n

/-- One side of a comparison, where the bound stands if it is positive there. -/
theorem denotes_side {n : Int} {c : Prop} [Decidable c] (positive : c → 0 ≤ n)
    (h : List.Forall₂ Denotes es vs) :
    Denotes (.sum (if c then es ++ [.ofInt n] else es))
      (vs.sum + fun w : Monomial → Rat => if c then n * w .unit else 0) := by
  split
  · next here =>
    have appended := List.rel_append h (.cons (denotes_ofInt (positive here)) .nil)
    have side := Denotes.sum appended
    rwa [List.sum_append, List.sum_singleton] at side
  · show Denotes (.sum es) (vs.sum + 0)
    rw [add_zero]
    exact Denotes.sum h

end Expr

namespace Constraint

variable {p : Poly}

/-- The sides of a comparison differ by the polynomial less the bound. -/
theorem exists_sides (o : Operator) (v : Int) (ordered : p.Ordered)
    (summands : List.Forall₂ Expr.Summand.Denotes p.summands (Term.values p.terms)) :
    ∃ a b q r, comparisonExpr o p v = .binary o a b ∧ a.ConvertsTo q ∧ b.ConvertsTo r ∧
      q - r = p - .const v := by
  obtain ⟨added, taken, left, right, total⟩ := Expr.Summand.denotes_split summands
  obtain ⟨q, converts, values⟩ := Expr.denotes_side (c := v < 0) (n := -v) (fun h => by omega) left
  obtain ⟨r, converts', values'⟩ := Expr.denotes_side (c := 0 < v) (n := v) (fun h => by omega) right
  refine ⟨_, _, q, r, rfl, converts, converts', ?_⟩
  refine Poly.eq_of_valueAt (converts.ordered.sub converts'.ordered)
    (ordered.sub (Poly.ordered_const _)) fun w => ?_
  have whole : p.valueAt w = added.sum w - taken.sum w := by
    obtain ⟨ts⟩ := p
    rw [← Term.sum_values, total, Pi.sub_apply]
  rw [Poly.valueAt_sub, Poly.valueAt_sub, values, values', whole, Poly.valueAt_const_mul,
    Pi.add_apply, Pi.add_apply]
  rcases lt_trichotomy v 0 with negative | rfl | positive
  · rw [if_pos negative, if_neg (by omega)]
    push_cast
    ring
  · simp
  · rw [if_neg (by omega), if_pos positive]
    ring

/-- A comparison of sides that differ by the polynomial less the bound is the constraint. -/
theorem ofComparison_of_sub {o : Operator} {c : Constraint} {q r : Poly} {v : Int}
    (ordered : c.poly.Ordered) (comparison : c.IsComparison) (sides : q - r = c.poly - .const v)
    (bound : Bound.ofComparison o v = .inr c.bound) : ofComparison o q r = .constraint c := by
  have constant : c.poly.constantTerm = 0 := by
    have whole := Poly.valueAt_eq_constantTerm_add (w := fun _ => 1) rfl ordered
    rw [comparison.linear] at whole
    linarith
  rw [ofComparison, sides, Poly.withoutConstant_sub_const ordered, comparison.linear,
    comparison.primitive,
    Poly.constantTerm_sub_const ordered, constant]
  dsimp only
  rw [if_neg (by norm_num), zero_sub, neg_neg, div_one, bound]

theorem formula_toExpr {c : Constraint} (returnable : c.poly.Everywhere Poly.Returnable)
    (comparison : c.IsComparison) : (formula c.toExpr).result = .ok (.constraint c) := by
  obtain ⟨o, v, rel, tree, bound⟩ := comparison.comparison
  obtain ⟨ordered, recurs, writable⟩ := returnable.here
  have summands := Poly.denotes_summands ordered writable fun a mem =>
    Atom.returns (returnable.atom mem) (recurs a mem)
  obtain ⟨a, b, q, r, binary, left, right, sides⟩ := exists_sides o v ordered summands
  have shapes : ¬((o = .eq ∨ o = .ne) ∧ (a.isBoolean ∨ b.isBoolean)) := by
    simp [left.isBoolean, right.isBoolean]
  rw [tree, binary, Expr.binary, formula_relation rel, if_neg shapes,
    ← ofComparison_of_sub ordered comparison sides bound]
  exact Attempt.bind_eq_ok.2 ⟨q, left, Attempt.bind_eq_ok.2 ⟨r, right, rfl⟩⟩

end Constraint

namespace Formula

mutual
/-- The polynomials have integer coefficients and small powers, also inside atoms. -/
def Writable : Formula → Prop
  | .const _ => True
  | .prop a => a.Everywhere Poly.Writable
  | .constraint c => c.poly.Everywhere Poly.Writable
  | .not f => f.Writable
  | .and fs => WritableAll fs
  | .or fs => WritableAll fs

def WritableAll : List Formula → Prop
  | [] => True
  | f :: fs => f.Writable ∧ WritableAll fs
end

theorem writableAll_iff {fs : List Formula} : WritableAll fs ↔ ∀ f ∈ fs, f.Writable := by
  induction fs with
  | nil => simp [WritableAll]
  | cons f fs ih => simp [WritableAll, ih]

theorem formulas_toExprs {fs : List Formula}
    (h : ∀ f ∈ fs, (formula f.toExpr).result = .ok f) : (formulas (toExprs fs)).result = .ok fs := by
  induction fs with
  | nil => rfl
  | cons f fs ih =>
    obtain ⟨first, rest⟩ := List.forall_mem_cons.1 h
    exact Attempt.bind_eq_ok.2 ⟨f, first, Attempt.bind_eq_ok.2 ⟨fs, ih rest, rfl⟩⟩

theorem junction_toExprs {fs : List Formula} (several : 2 ≤ fs.length) (o : Operator) :
    Expr.junction o (toExprs fs) = .op o (toExprs fs) := by
  match fs with
  | [] | [_] => simp at several
  | _ :: _ :: _ => rfl

/-- The tree of a formula is converted to it. -/
theorem formula_toExpr {f : Formula} (recurs : f.Recurs) (writable : f.Writable) :
    (formula f.toExpr).result = .ok f := by
  induction recurs with
  | const b => rfl
  | @prop a ordered parts recurs =>
    have returnable := ordered.and (parts.and writable)
    have inside : ∀ p ∈ a.polys, p.toExpr.ConvertsTo p := fun p mem =>
      Poly.convertsTo_toExpr (Atom.everywhere_iff.1 returnable p mem)
    cases a with
    | symbol name => rfl
    | app head ps => exact (applyTo_of_convertsTo recurs (Poly.forall₂_toExprs inside)).2
    | quot p q | rem p q => cases recurs
    | verbatim e => exact recurs
  | constraint ordered poly comparison =>
    exact Constraint.formula_toExpr (ordered.and (poly.and writable)) comparison
  | not part ih => exact Attempt.bind_eq_ok.2 ⟨_, ih writable, rfl⟩
  | and several parts ih =>
    have operands := formulas_toExprs fun f mem => ih f mem (writableAll_iff.1 writable f mem)
    rw [toExpr, junction_toExprs several]
    exact Attempt.bind_eq_ok.2 ⟨_, operands, rfl⟩
  | or several parts ih =>
    have operands := formulas_toExprs fun f mem => ih f mem (writableAll_iff.1 writable f mem)
    rw [toExpr, junction_toExprs several]
    exact Attempt.bind_eq_ok.2 ⟨_, operands, rfl⟩

end Formula

namespace Expr

/-- A tree that is read joins two operands at a time. -/
theorem joins_of_derives {n k : Nat} {ws : List Word} {e : Expr} (h : Derives n k ws e) :
    e.Everywhere Joins := by
  induction h using Derives.rec (motive_2 := fun _ _ es _ => ∀ e ∈ es, e.Everywhere Joins) with
  | tighter _ _ _ ih | paren _ _ _ ih => exact ih
  | left _ _ _ _ iha ihb | relation _ _ _ _ iha ihb | pow _ _ _ iha ihb =>
    exact .node le_rfl (by simp [binary, parts, iha, ihb])
  | not _ ih | neg _ ih => exact .node trivial (by simp [parts, ih])
  | num => exact .node trivial (by simp [parts])
  | name lexeme =>
    rcases name_eq lexeme with ⟨b, -, leaf⟩ | leaf <;> rw [leaf] <;>
      exact .node trivial (by simp [parts])
  | apply _ _ _ ih => exact .node trivial (by simp [parts, ih])
  | call _ _ _ _ ihf ihargs => exact .node trivial (List.forall_mem_cons.2 ⟨ihf, ihargs⟩)
  | index _ _ _ _ ihbase ihkey => exact .node trivial (by simp [parts, ihbase, ihkey])
  | @member n ws d u base _ _ _ ih =>
    exact members_induction (motive := fun e => e.Everywhere Joins) base u.lexeme
      (fun _ => .node trivial (by simp [parts, ih]))
      fun _ _ _ inside => .node trivial (by simp [parts, inside])
  | one _ ih c mem => exact List.mem_singleton.1 mem ▸ ih
  | more _ _ _ ih ihs c mem => exact List.forall_mem_cons.2 ⟨ih, ihs⟩ c mem

end Expr

namespace Conversion

/-- What a tree that was read is converted to is converted back from its own tree: the formula, and
the polynomial. -/
theorem returns_of_ofTokens {ts : List Token} {e : Expr} (h : Expr.ofTokens ts = .ok e) :
    (∀ f, e.toFormula.result = .ok f → f.Writable → f.toExpr.toFormula.result = .ok f) ∧
      ∀ p, e.toPoly.result = .ok p → p.Everywhere Poly.Writable → p.toExpr.toPoly.result = .ok p := by
  constructor
  · intro f result writable
    have joins := Expr.joins_of_derives (Expr.derives_of_ofTokens h)
    exact Formula.formula_toExpr (recurs_formula joins result) writable
  · intro p result writable
    exact Poly.convertsTo_toExpr ((wellFormed_term result).and ((recurs_term result).and writable))

/-- `x / 2 >= 3 * y ** 2 || !m[f(x)].sum` -/
def quotientOrFlag : Expr :=
  .op .or [.op .ge [.op .div [.ident "x", .num "2"],
    .op .mul [.num "3", .op .pow [.ident "y", .num "2"]]],
    .not (.member (.index (.ident "m") (.call (.ident "f") [.ident "x"])) "sum")]

/-- What `quotientOrFlag` is converted to. -/
def quotientOrFlagFormula : Formula :=
  .or [.constraint ⟨⟨[⟨⟨[⟨.symbol "y", 2⟩]⟩, 3⟩, ⟨.ofAtom (.quot (.symbol "x") (.const 2)), -1⟩]⟩,
      .range none (some 0)⟩,
    .not (.prop (.app (.indexField "m" "sum") [.ofAtom (.app (.function "f") [.symbol "x"])]))]

set_option maxRecDepth 20000 in
theorem returns_of_ofTokens_quotientOrFlag :
    ∃ ts, Expr.ofTokens ts = .ok quotientOrFlag ∧
      quotientOrFlag.toFormula.result = .ok quotientOrFlagFormula ∧
      quotientOrFlagFormula.Writable ∧
      quotientOrFlagFormula.toExpr.toFormula.result = .ok quotientOrFlagFormula := by
  obtain ⟨ts, -, derives⟩ := Expr.exists_tokens_of_ofText
    (show Expr.ofText "x / 2 >= 3 * y ** 2 || !m[f(x)].sum" = .ok quotientOrFlag by cbv)
  have read := Expr.ofTokens_of_derives derives
  have result : quotientOrFlag.toFormula.result = .ok quotientOrFlagFormula := by
    with_unfolding_all rfl
  have writable : quotientOrFlagFormula.Writable := by
    simp [quotientOrFlagFormula, Formula.Writable, Formula.WritableAll, Poly.Everywhere,
      Term.EverywhereAll, Monomial.Everywhere, Factor.EverywhereAll, Atom.Everywhere,
      Poly.EverywhereAll, Poly.ofAtom, Poly.symbol, Poly.const, Monomial.ofAtom, Monomial.unit,
      Poly.writable_iff, Poly.IntegerCoeffs, maxSymbolicExponent]
  exact ⟨ts, read, result, writable, (returns_of_ofTokens read).1 _ result writable⟩

/-- `f(0.5) > 0` -/
def appliedHalf : Expr := .op .gt [.call (.ident "f") [.num "0.5"], .num "0"]

/-- `f(q) >= 1` -/
def appliedAtLeastOne (q : Rat) : Formula :=
  .constraint ⟨.ofAtom (.app (.function "f") [.const q]), .range (some 1) none⟩

/-- `x ** 5 * x ** 4 == 1` -/
def ninthPower : Expr :=
  .op .eq [.op .mul [.op .pow [.ident "x", .num "5"], .op .pow [.ident "x", .num "4"]], .num "1"]

/-- The constraint that a polynomial is one. -/
def isOne (p : Poly) : Formula := .constraint ⟨p, .range (some 1) (some 1)⟩

set_option maxRecDepth 20000 in
/-- A fraction inside an application comes back as zero, and a power above the limit as a tree that
is kept as it stands. -/
theorem returns_of_ofTokens_ne :
    (∃ ts f g, Expr.ofTokens ts = .ok appliedHalf ∧ appliedHalf.toFormula.result = .ok f ∧
      f.toExpr.toFormula.result = .ok g ∧ g ≠ f) ∧
    ∃ ts f g, Expr.ofTokens ts = .ok ninthPower ∧ ninthPower.toFormula.result = .ok f ∧
      f.toExpr.toFormula.result = .ok g ∧ g ≠ f := by
  obtain ⟨ts, -, derives⟩ := Expr.exists_tokens_of_ofText
    (show Expr.ofText "f(0.5) > 0" = .ok appliedHalf by cbv)
  obtain ⟨us, -, derives'⟩ := Expr.exists_tokens_of_ofText
    (show Expr.ofText "x ** 5 * x ** 4 == 1" = .ok ninthPower by cbv)
  refine ⟨⟨ts, appliedAtLeastOne (1 / 2), appliedAtLeastOne 0, Expr.ofTokens_of_derives derives,
    by cbv, by cbv, ?_⟩, us, isOne (.ofTerm ⟨[⟨.symbol "x", 9⟩]⟩ 1),
    isOne (.ofAtom (.verbatim (.binary .pow (.ident "x") (.num "9")))),
    Expr.ofTokens_of_derives derives', by with_unfolding_all rfl, by cbv, ?_⟩
  · simp [appliedAtLeastOne, Poly.ofAtom, Monomial.ofAtom, Poly.const, Poly.zero]
  · simp [isOne, Poly.ofAtom, Poly.ofTerm, Monomial.ofAtom]

end Conversion
end PredicateStrength
