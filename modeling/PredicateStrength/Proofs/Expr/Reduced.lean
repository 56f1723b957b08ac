import Mathlib
import PredicateStrength.Proofs.Expr.Normal

/-!
# What a canonical tree does not contain

A tree that is its own canonical form might still be one that the passes of a round change and
change back, or that comes back after a few rounds. There is none: no rule applies anywhere in such
a tree. Here this is said of the nodes themselves, without the patterns that the rules look for.

Main statement: `Expr.canonical_eq_self_iff_reduced`.
-/
namespace PredicateStrength

open PredicateStrength.Canonical

namespace Expr

/-- No rule applies to the root. -/
structure Reduced (e : Expr) : Prop where
  /-- The root is no double negation. -/
  negation : ∀ x, e ≠ .not (.not x)
  /-- It does not compare with a truth value for (in)equality. -/
  truth : ∀ o a b, e = .op o [a, b] → o = .eq ∨ o = .ne → ∀ v, a ≠ .bool v ∧ b ≠ .bool v
  /-- It does not relate a difference to anything. -/
  difference : ∀ o a b, e = .op o [a, b] → o.isRelational = true →
    ∀ x y, a ≠ .op .sub [x, y] ∧ b ≠ .op .sub [x, y]
  /-- It joins no operand that is joined in the same way. -/
  flat : ∀ o ∈ [Operator.and, .or, .add], ∀ args, e = .op o args → ∀ inner, .op o inner ∉ args
  /-- Operands whose order does not matter are in ascending order. -/
  order : ∀ o args, e = .op o args → o.isCommutative = true → Sorting.Ascending cmp args
  /-- It does not call a local idiom without arguments. -/
  idiom : ∀ name ∈ localIdioms.map Prod.fst, e ≠ .call (.ident name) []
  /-- It does not compare a value under a flag mask with zero, in whatever order the operands
  stand. -/
  flag : ∀ o a b, e = .op o [a, b] → o = .eq ∨ o = .ne →
    ∀ x y, (∃ mask ∈ flagIdioms.map Prod.fst, x = .ident mask ∨ y = .ident mask) →
      ¬(a = .op .bitAnd [x, y] ∧ b.isZeroLiteral = true) ∧
        ¬(a.isZeroLiteral = true ∧ b = .op .bitAnd [x, y])

variable {e : Expr}

theorem exists_eq_of_isDifference {e : Expr} :
    e.isDifference = true ↔ ∃ x y, e = .op .sub [x, y] := by
  cases e with
  | op o args => simp [isDifference_op, List.length_eq_two]
  | _ => simp [isDifference]

/-- A zero literal is no masked value, so the two sides of a flag comparison differ. -/
theorem matches_flagCompared_iff : e.Matches Pattern.flagCompared ↔
    ∃ o a b, e = .op o [a, b] ∧ (o = .eq ∨ o = .ne) ∧
      ((a.Matches Pattern.masked ∧ b.isZeroLiteral = true) ∨
        (a.isZeroLiteral = true ∧ b.Matches Pattern.masked)) := by
  have apart {c : Expr} (zero : c.isZeroLiteral = true) : ¬c.Matches Pattern.masked := by
    rintro masked
    obtain ⟨a, b, rfl, -⟩ := matches_masked.1 masked
    cases zero
  rw [Matches]
  simp only [Pattern.flagCompared, List.forall_mem_cons, List.not_mem_nil, false_implies,
    implies_true, and_true, matches_alone]
  constructor
  · rintro ⟨⟨o, a, b, rfl, isEq⟩, zero, masked⟩
    refine ⟨o, a, b, rfl, isEq, ?_⟩
    rcases exists_mem_pair.1 zero with zero | zero <;>
      rcases exists_mem_pair.1 masked with masked | masked
    · exact absurd masked (apart zero)
    · exact .inr ⟨zero, masked⟩
    · exact .inl ⟨masked, zero⟩
    · exact absurd masked (apart zero)
  · rintro ⟨o, a, b, rfl, isEq, ⟨masked, zero⟩ | ⟨zero, masked⟩⟩
    · exact ⟨⟨o, a, b, rfl, isEq⟩, ⟨b, by simp [parts], zero⟩, a, by simp [parts], masked⟩
    · exact ⟨⟨o, a, b, rfl, isEq⟩, ⟨a, by simp [parts], zero⟩, b, by simp [parts], masked⟩

theorem exists_lookup_iff {name : String} :
    (∃ t, localIdioms.lookup name = some t) ↔ name ∈ localIdioms.map Prod.fst := by
  rw [← Option.isSome_iff_exists, List.lookup_isSome_iff]
  simp

/-- A node without defects, whose operands are in order, is one to which no rule applies. -/
theorem reduced_of_not_matches (free : ∀ d ∈ Pattern.defects, ¬e.Matches d) (ordered : InOrder e) :
    Reduced e := by
  simp only [Pattern.defects, List.forall_mem_cons, List.not_mem_nil, false_implies, implies_true,
    and_true] at free
  obtain ⟨negation, truth, difference, conjunction, disjunction, sum, idiom, flag⟩ := free
  constructor
  · exact fun x same => negation (matches_doubleNegation.2 ⟨x, same⟩)
  · intro o a b same isEq v
    constructor
    · exact fun left => truth (matches_truthCompared.2 ⟨o, a, b, same, isEq, .inl ⟨v, left⟩⟩)
    · exact fun right => truth (matches_truthCompared.2 ⟨o, a, b, same, isEq, .inr ⟨v, right⟩⟩)
  · intro o a b same relational x y
    constructor
    · exact fun left => difference (matches_differenceCompared.2
        ⟨o, a, b, same, relational, .inl (exists_eq_of_isDifference.2 ⟨x, y, left⟩)⟩)
    · exact fun right => difference (matches_differenceCompared.2
        ⟨o, a, b, same, relational, .inr (exists_eq_of_isDifference.2 ⟨x, y, right⟩)⟩)
  · simp only [List.forall_mem_cons, List.not_mem_nil, false_implies, implies_true, and_true]
    refine ⟨?_, ?_, ?_⟩ <;> intro args same inner mem
    · exact conjunction (matches_nested.2 ⟨rfl, args, inner, same, mem⟩)
    · exact disjunction (matches_nested.2 ⟨rfl, args, inner, same, mem⟩)
    · exact sum (matches_nested.2 ⟨rfl, args, inner, same, mem⟩)
  · rintro o args rfl commutative
    exact ordered commutative
  · intro name known same
    obtain ⟨t, entry⟩ := exists_lookup_iff.2 known
    exact idiom (matches_idiomCalled.2 ⟨name, t, same, entry⟩)
  · rintro o a b same isEq x y ⟨mask, known, side⟩
    have masked : Matches (.op .bitAnd [x, y]) Pattern.masked :=
      matches_masked.2 ⟨x, y, rfl, mask, known, side⟩
    constructor
    · rintro ⟨rfl, zero⟩
      exact flag (matches_flagCompared_iff.2 ⟨o, _, b, same, isEq, .inl ⟨masked, zero⟩⟩)
    · rintro ⟨zero, rfl⟩
      exact flag (matches_flagCompared_iff.2 ⟨o, a, _, same, isEq, .inr ⟨zero, masked⟩⟩)

theorem Reduced.not_matches (h : Reduced e) : ∀ d ∈ Pattern.defects, ¬e.Matches d := by
  simp only [Pattern.defects, List.forall_mem_cons, List.not_mem_nil, false_implies, implies_true,
    and_true]
  have flat {o : Operator} (assoc : o ∈ [Operator.and, .or, .add]) : ¬e.Matches (.nested o) := by
    intro found
    obtain ⟨-, args, inner, same, mem⟩ := matches_nested.1 found
    exact h.flat o assoc args same inner mem
  refine ⟨?_, ?_, ?_, flat (by simp), flat (by simp), flat (by simp), ?_, ?_⟩ <;> intro found
  · obtain ⟨x, same⟩ := matches_doubleNegation.1 found
    exact h.negation x same
  · obtain ⟨o, a, b, same, isEq, ⟨v, left⟩ | ⟨v, right⟩⟩ := matches_truthCompared.1 found
    · exact (h.truth o a b same isEq v).1 left
    · exact (h.truth o a b same isEq v).2 right
  · obtain ⟨o, a, b, same, relational, left | right⟩ := matches_differenceCompared.1 found
    · obtain ⟨x, y, left⟩ := exists_eq_of_isDifference.1 left
      exact (h.difference o a b same relational x y).1 left
    · obtain ⟨x, y, right⟩ := exists_eq_of_isDifference.1 right
      exact (h.difference o a b same relational x y).2 right
  · obtain ⟨name, t, same, entry⟩ := matches_idiomCalled.1 found
    exact h.idiom name (exists_lookup_iff.1 ⟨t, entry⟩) same
  · obtain ⟨o, a, b, same, isEq, ⟨masked, zero⟩ | ⟨zero, masked⟩⟩ :=
      matches_flagCompared_iff.1 found
    · obtain ⟨x, y, left, mask, known, side⟩ := matches_masked.1 masked
      exact (h.flag o a b same isEq x y ⟨mask, known, side⟩).1 ⟨left, zero⟩
    · obtain ⟨x, y, right, mask, known, side⟩ := matches_masked.1 masked
      exact (h.flag o a b same isEq x y ⟨mask, known, side⟩).2 ⟨zero, right⟩

theorem Reduced.inOrder (h : Reduced e) : InOrder e := by
  cases e with
  | op o args => exact h.order o args rfl
  | _ => trivial

/-- The trees that are their own canonical form are those to no node of which a rule applies. -/
theorem canonical_eq_self_iff_reduced : e.canonical = e ↔ Everywhere Reduced e := by
  rw [canonical_eq_self_iff]
  constructor
  · rintro ⟨free, ordered⟩
    have none := Everywhere.forall_of fun d : {d // d ∈ Pattern.defects} => free d d.2
    exact (none.and ordered).mono fun c h =>
      reduced_of_not_matches (fun d defect => h.1 ⟨d, defect⟩) h.2
  · intro reduced
    exact ⟨fun d defect => reduced.mono fun c h => h.not_matches d defect,
      reduced.mono fun c => Reduced.inOrder⟩

end Expr
end PredicateStrength
