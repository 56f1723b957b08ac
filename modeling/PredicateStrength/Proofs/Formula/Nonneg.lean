import Mathlib
import PredicateStrength.Proofs.Formula.DecodedMeaning
import PredicateStrength.Proofs.Formula.Ordered

/-!
# Polynomials that cannot be negative

Names and applications stand for any numbers from zero on, independent of each other; quotients and
remainders are those of integers, rounded toward zero, and a tree that is kept as it stands has its
value. `isNonneg` goes through polynomials, atoms and kept trees in turn. That a quotient is one of
integers needs integer coefficients in the polynomials it is made of: conversion makes no fractions
of numerals that denote integers (`Conversion.keeps_integers`).

Main statement: every polynomial that conversion makes of such a tree, at any depth, for which
`isNonneg` says so is at least zero (`nonneg_of_isNonneg`).
-/
namespace PredicateStrength

variable {I : Interp Int} {V : Valuation}

/-- Numbers from zero on for names and applications, and the values of quotients, remainders and
kept trees. A kept tree without a value stands for some number, from zero on if nothing in the tree
can be negative. -/
structure Valuation.Assigns (V : Valuation) (I : Interp Int) : Prop where
  symbol : ∀ name, 0 ≤ V.number (.symbol name)
  app : ∀ head args, 0 ≤ V.number (.app head args)
  quot : ∀ (p q : Poly) (m n : Int), V.value p = m → V.value q = n →
    V.number (.quot p q) = m.tdiv n
  rem : ∀ (p q : Poly) (m n : Int), V.value p = m → V.value q = n →
    V.number (.rem p q) = m.tmod n
  kept : ∀ e v, I.value? e = some v → V.number (.verbatim e) = v.number
  senseless : ∀ e, I.value? e = none → e.mayBeNegative = false → 0 ≤ V.number (.verbatim e)

/-- The numeral denotes an integer. -/
def Interp.Denotes (I : Interp Int) (digits : String) : Prop := ∃ n, I.literal? digits = some n

theorem Valuation.Assigns.admissible (assigns : V.Assigns I) (unsigned : I.Unsigned) :
    V.Admissible .unsigned where
  quot := assigns.quot
  rem := assigns.rem
  symbol _ := assigns.symbol
  app _ := assigns.app
  verbatim _ e nonneg := by
    cases value : I.value? e with
    | none => exact assigns.senseless e value nonneg
    | some v =>
      rw [assigns.kept e v value]
      exact unsigned.number_of_not_mayBeNegative nonneg value

/-- The numbers that are read can themselves be assigned. -/
theorem Interp.Reference.assigns (ref : I.Reference .unsigned) : I.valuation.Assigns I where
  symbol := ref.admissible.symbol rfl
  app := ref.admissible.app rfl
  quot := ref.admissible.quot
  rem := ref.admissible.rem
  kept e v value := by
    show ((I.value? e).getD (.num 0)).number = v.number
    rw [value, Option.getD_some]
  senseless e value _ := by
    show 0 ≤ ((I.value? e).getD (.num 0)).number
    rw [value, Option.getD_none, Value.number]

namespace Poly

variable {p : Poly}

theorem IntegerCoeffs.constant {c : Rat} (hp : p.IntegerCoeffs) (constant : p.constant? = some c) :
    c.den = 1 := by
  unfold constant? at constant
  split at constant
  · cases constant
    rfl
  · next t terms =>
    split at constant
    · cases constant
      exact hp t (by simp [terms])
    · cases constant
  · cases constant

/-- What holds wherever the polynomials inside have `P` holds at any depth. -/
theorem Everywhere.deepen {P Q : Poly → Prop} (h : ∀ q : Poly, q.Everywhere P → Q q)
    (hp : p.Everywhere P) : p.Everywhere Q := by
  have atoms (a : Atom) : a.Everywhere P → a.Everywhere Q := by
    induction a using Atom.inductionOnPolys with
    | node a ih =>
      intro inside
      rw [Atom.everywhere_iff] at inside ⊢
      exact fun p mem => everywhere_iff.2 ⟨h p (inside p mem), fun b part =>
        ih p mem b part ((inside p mem).atom part)⟩
  exact everywhere_iff.2 ⟨h p hp, fun a ha => atoms a (hp.atom ha)⟩

end Poly

namespace Conversion

variable {e : Expr} {p q r : Poly}

theorem integral_numeral (arith : I.Arithmetical) {digits : String}
    (denotes : I.Denotes digits) (h : (numeral e digits).result = .ok r) : r.Integral := by
  obtain ⟨n, literal⟩ := denotes
  unfold numeral at h
  split at h <;> cases h
  · next q value =>
    rw [arith.literal digits q n value literal]
    exact Poly.everywhere_iff.2 ⟨Poly.integerCoeffs_const (Rat.den_intCast n), by simp⟩
  · exact Poly.everywhere_ofAtom (Poly.integerCoeffs_ofAtom _) trivial

theorem Operation.integers (h : Operation e p q r) (hp : p.IntegerCoeffs) (hq : q.IntegerCoeffs) :
    r.IntegerCoeffs := by
  cases h with
  | sum => exact hp.add hq
  | difference => exact hp.sub hq
  | product => exact hp.mul hq
  | power n => exact hp.pow n
  | integer n => exact Poly.integerCoeffs_const (Rat.den_intCast n)
  | fraction dividend divisor uneven =>
    exact absurd ⟨hp.constant dividend, hq.constant divisor⟩ uneven
  | @scaled d nonzero even =>
    rw [← (Rat.den_eq_one_iff d).1 even.1]
    exact .scale_inv (fun zero => nonzero (Rat.num_eq_zero.1 zero)) even.2
  | quotient | remainder | kept => exact Poly.integerCoeffs_ofAtom _

theorem integral_arithmetic {o : Operator} (hp : p.Integral) (hq : q.Integral)
    (h : (arithmetic e o p q).result = .ok r) : r.Integral :=
  have operation := operation_of_arithmetic h
  operation.everywhere hp hq (operation.integers hp.here hq.here)

/-- Numerals that denote integers are converted to integer coefficients. -/
theorem keeps_integers (arith : I.Arithmetical) : Keeps I.Denotes Poly.IntegerCoeffs where
  zero := Poly.integerCoeffs_zero
  ofAtom := Poly.integerCoeffs_ofAtom
  numeral := integral_numeral arith
  neg hp := Poly.Everywhere.of_atoms hp hp hp.here.neg fun _ ha => .inl (Poly.atoms_neg ha)
  arithmetic := integral_arithmetic

/-- What holds of polynomials with integer coefficients inside holds throughout a formula. -/
theorem builds_integers (arith : I.Arithmetical) {Q : Poly → Prop}
    (h : ∀ p : Poly, p.Integral → Q p) : Builds I.Denotes (Formula.Everywhere Q) where
  const _ := trivial
  prop inside := Atom.everywhere_iff.2 fun p mem =>
    let ⟨_, numerals, result⟩ := inside p mem
    .deepen h (everywhere_term (keeps_integers arith) numerals result)
  comparison := by
    rintro o p q ⟨a, first, left⟩ ⟨b, second, right⟩
    have hp := everywhere_term (keeps_integers arith) first left
    have hq := everywhere_term (keeps_integers arith) second right
    have kept : (Constraint.ofComparison o p q).Over (Poly.Everywhere Q) :=
      Constraint.over_ofComparison (wellFormed_term left).here (wellFormed_term right).here
        fun r _ integers atoms => .deepen h (.of_atoms hp hq integers atoms)
    rw [Constraint.ofComparison] at kept ⊢
    split at kept
    · trivial
    · split at kept
      · trivial
      · exact kept
  not := id
  and every := Formula.everywhereAll_iff.2 every
  or every := Formula.everywhereAll_iff.2 every

end Conversion

/-- Where `isNonneg` says so, the value is at least zero. -/
theorem nonneg_of_isNonneg (unsigned : I.Unsigned) (assigns : V.Assigns I) {e : Expr}
    (numerals : e.Numerals I.Denotes I.Denotes) :
    (∀ p, e.toPoly.result = .ok p →
      p.Everywhere fun q => q.isNonneg = true → 0 ≤ V.value q) ∧
    ∀ f, e.toFormula.result = .ok f →
      f.Everywhere fun q => q.isNonneg = true → 0 ≤ V.value q := by
  have sound (p : Poly) (integral : p.Integral) (nonneg : p.isNonneg = true) : 0 ≤ V.value p :=
    Poly.value_nonneg (assigns.admissible unsigned) nonneg integral
  constructor
  · intro p result
    exact .deepen sound
      (Conversion.everywhere_term (Conversion.keeps_integers unsigned.toArithmetical) numerals
        result)
  · intro f result
    exact Conversion.formula_of_builds
      (Conversion.builds_integers unsigned.toArithmetical sound) numerals result

/-- `((x - y) / z) ** 2 * (c & d) ** n + f(x - y) % 3`. -/
def squareAndRemainder : Expr :=
  .op .add
    [.op .mul
      [.op .pow [.op .div [.op .sub [.ident "x", .ident "y"], .ident "z"], .num "2"],
        .op .pow [.op .bitAnd [.ident "c", .ident "d"], .ident "n"]],
      .op .mod [.call (.ident "f") [.op .sub [.ident "x", .ident "y"]], .num "3"]]

/-- A quotient with a difference in front counts by its even power, the kept power by its tree. -/
theorem nonneg_of_isNonneg_square : ∃ p, squareAndRemainder.toPoly.result = .ok p ∧
    p.isNonneg = true ∧ 0 ≤ (Interp.uniform 7).valuation.value p := by
  have ref := Interp.reference_uniform (x := 7) (by decide) .unsigned
  have two : (Interp.uniform 7).Denotes "2" := ⟨2, by cbv⟩
  have three : (Interp.uniform 7).Denotes "3" := ⟨3, by cbv⟩
  have numerals : squareAndRemainder.Numerals (Interp.uniform 7).Denotes
      (Interp.uniform 7).Denotes := by
    simp [squareAndRemainder, two, three]
  have positive : squareAndRemainder.toPoly.result.toOption.map Poly.isNonneg = some true := by
    decide +kernel
  obtain ⟨p, found, positive⟩ := Option.map_eq_some_iff.1 positive
  have result : squareAndRemainder.toPoly.result = .ok p := by
    cases outcome : squareAndRemainder.toPoly.result with
    | ok q => rw [outcome] at found; exact congrArg Except.ok (Option.some.inj found)
    | error x => rw [outcome] at found; cases found
  have sound := (nonneg_of_isNonneg ref.unsigned ref.assigns numerals).1 p result
  exact ⟨p, result, positive, sound.here positive⟩

end PredicateStrength
