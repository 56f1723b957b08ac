import Mathlib
import PredicateStrength.Proofs.Expr.Traversal
import PredicateStrength.Proofs.LooseTruth

/-!
# Bounds of single names

A predicate that joins boolean names and comparisons of a name with an integer literal has the same
truth value in a loose model and under the assignment that gives every name what the model gives
it: the only polynomials are names, so values chosen for each polynomial by itself are values of
the names. So such predicates are compared exactly.

Main statements: `NameBounds.canonical`, `NameBounds.truthIn` and `Settings.compare_nameBounds`.
-/
namespace PredicateStrength

/-- A numeral with an integer as its exact value, or a negated one. -/
inductive IntegerLiteral : Expr → Int → Prop
  | num {digits : String} {n : Nat} (value : Numeral.value? digits = some (n : Rat)) :
      IntegerLiteral (.num digits) n
  | neg {e : Expr} {n : Int} (inner : IntegerLiteral e n) : IntegerLiteral (.neg e) (-n)

/-- An integer name and a literal. -/
inductive NameAndLiteral (sorts : String → ValueSort) : Expr → Expr → Prop
  | mk {x : String} {e : Expr} {n : Int} (sort : sorts x = .integer)
      (literal : IntegerLiteral e n) : NameAndLiteral sorts (.ident x) e

/-- A predicate that joins boolean names and comparisons of an integer name with a literal. -/
inductive NameBounds (sorts : String → ValueSort) : Expr → Prop
  | bool (b : Bool) : NameBounds sorts (.bool b)
  | name {x : String} (sort : sorts x = .boolean) : NameBounds sorts (.ident x)
  | not {e : Expr} (inner : NameBounds sorts e) : NameBounds sorts (.not e)
  | and {es : List Expr} (each : ∀ e ∈ es, NameBounds sorts e) : NameBounds sorts (.op .and es)
  | or {es : List Expr} (each : ∀ e ∈ es, NameBounds sorts e) : NameBounds sorts (.op .or es)
  | bound {o : Operator} {a b : Expr} (rel : o.isRelational = true)
      (sides : NameAndLiteral sorts a b ∨ NameAndLiteral sorts b a) :
      NameBounds sorts (.op o [a, b])

variable {sorts : String → ValueSort} {d : Domain}

namespace IntegerLiteral

variable {e : Expr} {n : Int}

theorem literalValue? (h : IntegerLiteral e n) : e.literalValue? = some (n : Rat) := by
  induction h with
  | num value => exact value
  | neg _ ih => simp [Expr.literalValue?, ih]

/-- A rule that leaves numerals and negated numbers alone leaves literals alone. -/
theorem bottomUp_eq {rule : Expr → Expr} (num : ∀ digits, rule (.num digits) = .num digits)
    (neg : ∀ e, rule (.neg e) = .neg e) (h : IntegerLiteral e n) : e.bottomUp rule = e := by
  induction h with
  | num => exact num _
  | neg _ ih => rw [Expr.bottomUp, ih, neg]

end IntegerLiteral

namespace NameBounds

variable {e : Expr}

/-- The operands of a comparison are neither operations nor truth values. -/
theorem sides_leaf {a b : Expr} (sides : NameAndLiteral sorts a b ∨ NameAndLiteral sorts b a) :
    (∀ o args, a ≠ .op o args) ∧ (∀ o args, b ≠ .op o args) ∧ (∀ t, a ≠ .bool t) ∧
      ∀ t, b ≠ .bool t := by
  rcases sides with ⟨_, literal⟩ | ⟨_, literal⟩ <;> cases literal <;> simp

/-- The rule leaves names and number literals alone. -/
structure KeepsLeaves (rule : Expr → Expr) : Prop where
  name : ∀ x, rule (.ident x) = .ident x
  num : ∀ digits, rule (.num digits) = .num digits
  neg : ∀ e, rule (.neg e) = .neg e

/-- What a rule has to do to keep predicates on bounds of names. -/
structure KeptBy (sorts : String → ValueSort) (rule : Expr → Expr) : Prop where
  leaves : KeepsLeaves rule
  root : ∀ e, NameBounds sorts e → NameBounds sorts (rule e)

theorem KeptBy.bottomUp {rule : Expr → Expr} (kept : KeptBy sorts rule) (h : NameBounds sorts e) :
    NameBounds sorts (e.bottomUp rule) := by
  have same : ∀ a b, NameAndLiteral sorts a b → a.bottomUp rule = a ∧ b.bottomUp rule = b := by
    rintro _ b ⟨_, literal⟩
    exact ⟨kept.leaves.name _, literal.bottomUp_eq kept.leaves.num kept.leaves.neg⟩
  induction h with
  | bool b => exact kept.root _ (.bool b)
  | name sort => exact kept.root _ (.name sort)
  | not _ ih => exact kept.root _ (.not ih)
  | and _ ih =>
    rw [Expr.bottomUp, Expr.bottomUpAll_eq_map]
    exact kept.root _ (.and (List.forall_mem_map.2 ih))
  | or _ ih =>
    rw [Expr.bottomUp, Expr.bottomUpAll_eq_map]
    exact kept.root _ (.or (List.forall_mem_map.2 ih))
  | @bound o a b rel sides =>
    have operands : a.bottomUp rule = a ∧ b.bottomUp rule = b :=
      sides.elim (same a b) fun swapped => (same b a swapped).symm
    rw [Expr.bottomUp, Expr.bottomUpAll, Expr.bottomUpAll, Expr.bottomUpAll, operands.1, operands.2]
    exact kept.root _ (.bound rel sides)

open Canonical

theorem keptBy_expandIdiom : KeptBy sorts expandIdiom where
  leaves := ⟨fun _ => rfl, fun _ => rfl, fun _ => rfl⟩
  root e h := by
    unfold expandIdiom
    split
    · cases h
    · exact h

theorem keptBy_foldBoolEquality : KeptBy sorts foldBoolEquality where
  leaves := ⟨fun _ => rfl, fun _ => rfl, fun _ => rfl⟩
  root e h := by
    unfold foldBoolEquality
    split
    · cases h with
      | bound _ sides => exact absurd rfl ((sides_leaf sides).2.2.1 _)
    · cases h with
      | bound _ sides => exact absurd rfl ((sides_leaf sides).2.2.2 _)
    · cases h with
      | bound _ sides => exact absurd rfl ((sides_leaf sides).2.2.1 _)
    · cases h with
      | bound _ sides => exact absurd rfl ((sides_leaf sides).2.2.2 _)
    · exact h

theorem keptBy_dropDoubleNegation : KeptBy sorts dropDoubleNegation where
  leaves := ⟨fun _ => rfl, fun _ => rfl, fun _ => rfl⟩
  root e h := by
    unfold dropDoubleNegation
    split
    · cases h with
      | not inner =>
        cases inner with
        | not inner => exact inner
    · exact h

theorem keptBy_shiftSubtraction : KeptBy sorts shiftSubtraction where
  leaves := ⟨fun _ => rfl, fun _ => rfl, fun _ => rfl⟩
  root e h := by
    have stay : ∀ a b : Expr, (∀ o args, a ≠ .op o args) → moveSubtrahends a b = (a, b) := by
      intro a b leaf
      unfold moveSubtrahends
      split
      · exact absurd rfl (leaf _ _)
      · rfl
    cases h with
    | @bound o a b rel sides =>
      obtain ⟨left, right, -⟩ := sides_leaf sides
      have kept : shiftSubtraction (.op o [a, b]) = .op o [a, b] := by
        simp only [shiftSubtraction, rel, if_true, stay b a right, stay a b left]
      rw [kept]
      exact .bound rel sides
    | @and es each =>
      unfold shiftSubtraction
      split
      · next eq => cases eq; exact .and each
      · exact .and each
    | @or es each =>
      unfold shiftSubtraction
      split
      · next eq => cases eq; exact .or each
      · exact .or each
    | bool b => exact .bool b
    | name sort => exact .name sort
    | not inner => exact .not inner

theorem operands (o : Operator) (h : NameBounds sorts e) :
    (o = .and ∨ o = .or) → ∀ c ∈ e.operands o, NameBounds sorts c := by
  rintro logical
  unfold Expr.operands
  split
  · next p args =>
    split
    · next same =>
      cases h with
      | and each => exact each
      | or each => exact each
      | bound rel => subst same; rcases logical with rfl | rfl <;> cases rel
    · exact List.forall_mem_singleton.2 h
  · exact List.forall_mem_singleton.2 h

theorem splice {o : Operator} {es : List Expr} (logical : o = .and ∨ o = .or)
    (each : ∀ e ∈ es, NameBounds sorts e) : ∀ c ∈ splice o es, NameBounds sorts c := by
  intro c mem
  obtain ⟨e, inside, mem⟩ := List.mem_flatMap.1 mem
  exact (each e inside).operands o logical c mem

theorem keptBy_flatten : KeptBy sorts flatten where
  leaves := ⟨fun _ => rfl, fun _ => rfl, fun _ => rfl⟩
  root e h := by
    cases h with
    | and each => exact .and (splice (.inl rfl) each)
    | or each => exact .or (splice (.inr rfl) each)
    | @bound o a b rel sides =>
      have single : o.isAssociative = false := by cases o <;> first | rfl | cases rel
      rw [flatten, if_neg (by simp [single])]
      exact .bound rel sides
    | bool b => exact .bool b
    | name sort => exact .name sort
    | not inner => exact .not inner

theorem keptBy_normalizeSum : KeptBy sorts normalizeSum where
  leaves := ⟨fun _ => rfl, fun _ => rfl, fun _ => rfl⟩
  root e h := by
    unfold normalizeSum
    split
    · cases h with
      | bound rel => cases rel
    · exact h

/-- The operands of a comparison may be put in order. -/
theorem sorted_pair {a b : Expr} : Expr.sorted [a, b] = [a, b] ∨ Expr.sorted [a, b] = [b, a] := by
  simp only [Expr.sorted, Sorting.sort, Sorting.insert]
  split <;> simp

theorem keptBy_sortCommutative : KeptBy sorts sortCommutative where
  leaves := ⟨fun _ => rfl, fun _ => rfl, fun _ => rfl⟩
  root e h := by
    cases h with
    | and each => exact .and fun c mem => each c ((Sorting.mem_sort Expr.cmp).1 mem)
    | or each => exact .or fun c mem => each c ((Sorting.mem_sort Expr.cmp).1 mem)
    | @bound o a b rel sides =>
      rw [sortCommutative]
      split
      · rcases sorted_pair (a := a) (b := b) with same | swapped
        · rw [same]
          exact .bound rel sides
        · rw [swapped]
          exact .bound rel sides.symm
      · exact .bound rel sides
    | bool b => exact .bool b
    | name sort => exact .name sort
    | not inner => exact .not inner

theorem keptBy_orderEquality : KeptBy sorts orderEquality where
  leaves := ⟨fun _ => rfl, fun _ => rfl, fun _ => rfl⟩
  root e h := by
    unfold orderEquality
    split
    · cases h with
      | bound rel sides => split; exacts [.bound rel sides.symm, .bound rel sides]
    · cases h with
      | bound rel sides => split; exacts [.bound rel sides.symm, .bound rel sides]
    · exact h

theorem keptBy_expandFlag : KeptBy sorts expandFlag where
  leaves := ⟨fun _ => rfl, fun _ => rfl, fun _ => rfl⟩
  root e h := by
    have none : ∀ a b : Expr, (NameAndLiteral sorts a b ∨ NameAndLiteral sorts b a) →
        (comparedWithZero? a b).bind flagTest? = none := by
      intro a b sides
      obtain ⟨left, right, -⟩ := sides_leaf sides
      have plain : ∀ e : Expr, (∀ o args, e ≠ .op o args) → flagTest? e = Option.none := by
        intro e leaf
        unfold flagTest?
        split
        · exact absurd rfl (leaf _ _)
        · rfl
      unfold comparedWithZero?
      split
      · exact plain a left
      · split
        · exact plain b right
        · rfl
    unfold expandFlag
    split
    · cases h with
      | bound rel sides => rw [none _ _ sides]; exact .bound rel sides
    · cases h with
      | bound rel sides => rw [none _ _ sides]; exact .bound rel sides
    · exact h

theorem round (h : NameBounds sorts e) : NameBounds sorts (Canonical.round e) := by
  rw [Canonical.round_eq]
  exact keptBy_expandFlag.bottomUp (keptBy_orderEquality.bottomUp (keptBy_sortCommutative.bottomUp
    (keptBy_normalizeSum.bottomUp (keptBy_flatten.bottomUp (keptBy_shiftSubtraction.bottomUp
    (keptBy_dropDoubleNegation.bottomUp (keptBy_foldBoolEquality.bottomUp
    (keptBy_expandIdiom.bottomUp h))))))))

theorem canonical (h : NameBounds sorts e) : NameBounds sorts e.canonical := by
  rw [Expr.canonical, Canonical.rounds_eq_iterate]
  exact Function.Iterate.rec _ h (fun _ => round) _

end NameBounds

/-- Truth values and integers of the domain for names. -/
structure Assignment (d : Domain) where
  truth : String → Bool
  number : String → Int
  nonneg : d = .unsigned → ∀ x, 0 ≤ number x

/-- The names read by their sorts; a call of a flag's predicate tests the flag's mask. -/
def Assignment.interp (sorts : String → ValueSort) (A : Assignment d) : Interp Int :=
  .standard fun
    | .name x =>
      match sorts x with
      | .boolean => .bool (A.truth x)
      | .integer => .num (A.number x)
    | .call (.name f) [.num y] => .bool (Canonical.flagIdioms.any fun (mask, predicate) =>
        predicate = f && Int.land y (A.number mask) ≠ 0)
    | _ => .num 0

theorem Assignment.reference (A : Assignment d) (sorts : String → ValueSort) :
    (A.interp sorts).Reference d := by
  refine Interp.reference_standard ?_ ?_
  · intro mask predicate mem m value x
    obtain ⟨rfl, rfl⟩ := Prod.mk.inj (List.mem_singleton.1 mem)
    dsimp only at value
    split at value
    · cases value
    · cases value
      simp [Canonical.flagIdioms]
  · intro unsigned p n value
    split at value
    · split at value
      · cases value
      · cases value
        exact A.nonneg unsigned _
    · cases value
    · cases value
      exact le_refl 0

/-- The assignment that gives every name what the loose model gives it. -/
def Loose.assignment (L : Loose d) : Assignment d where
  truth x := L.truth (.symbol x)
  number x := L.number (.symbol x)
  nonneg unsigned x := L.nonneg unsigned (.symbol x) rfl

theorem Poly.primitive?_symbol (x : String) :
    (symbol x).withoutConstant.primitive? = some (1, symbol x) := by
  have content : (if (1 : Rat) < 0 then -mkRat 1 1 else mkRat 1 1) = 1 := by
    rw [if_neg (by decide)]
    rfl
  simp [symbol, ofAtom, withoutConstant, Monomial.isUnit, Monomial.ofAtom, primitive?,
    numeratorGcd, denominatorLcm, scale, content]

theorem Loose.value_symbol (L : Loose d) (x : String) :
    L.value (.symbol x) = L.number (.symbol x) := by
  have constant : (Poly.symbol x).constantTerm = 0 := rfl
  rw [value, Poly.primitive?_symbol, constant]
  dsimp only
  rw [one_mul, add_zero]

namespace IntegerLiteral

variable {e : Expr} {n : Int}

theorem value? {read : Place Int → Value Int} (h : IntegerLiteral e n) :
    (Interp.standard read).value? e = some (.num n) := by
  induction h with
  | @num digits n value =>
    have literal : (Interp.standard read).literal? digits = some (n : Int) :=
      Interp.literal?_standard.2 ⟨by exact_mod_cast value, Int.natCast_nonneg n⟩
    show ((((Interp.standard read).literal? digits).map _).map _) = _
    rw [literal]
    rfl
  | neg _ ih => exact Interp.value?_neg_eq_some.2 ⟨_, ih, rfl⟩

theorem term (h : IntegerLiteral e n) : (Conversion.term e).result = .ok (.const n) := by
  have exists_term : ∃ p, (Conversion.term e).result = .ok p := by
    induction h with
    | num value =>
      rw [Conversion.term, Conversion.numeral, value]
      exact ⟨_, rfl⟩
    | neg _ ih =>
      obtain ⟨p, result⟩ := ih
      exact ⟨-p, Conversion.Attempt.bind_eq_ok.2 ⟨p, result, rfl⟩⟩
  obtain ⟨p, result⟩ := exists_term
  rw [result, Conversion.term_literalValue? h.literalValue? result]

theorem isBoolean (h : IntegerLiteral e n) : e.isBoolean = false := by cases h <;> rfl

end IntegerLiteral

namespace NameBounds
open Conversion

variable {L : Loose d} {A : Assignment d} {e : Expr}

theorem value?_name (x : String) : (A.interp sorts).value? (.ident x) =
    some (match sorts x with
      | .boolean => .bool (A.truth x)
      | .integer => .num (A.number x)) := rfl

/-- The operands of a comparison are numbers. -/
theorem value?_sides {a b : Expr} (sides : NameAndLiteral sorts a b ∨ NameAndLiteral sorts b a) :
    ∃ m n, (A.interp sorts).value? a = some (.num m) ∧
      (A.interp sorts).value? b = some (.num n) := by
  rcases sides with ⟨sort, literal⟩ | ⟨sort, literal⟩
  · exact ⟨_, _, by rw [value?_name, sort], literal.value?⟩
  · exact ⟨_, _, literal.value?, by rw [value?_name, sort]⟩

/-- The predicate is true or false under every assignment. -/
theorem value? (h : NameBounds sorts e) : ∃ c, (A.interp sorts).value? e = some (.bool c) := by
  induction h with
  | bool b => exact ⟨b, rfl⟩
  | @name x sort => exact ⟨A.truth x, by rw [value?_name, sort]⟩
  | not _ ih =>
    obtain ⟨c, value⟩ := ih
    exact ⟨!c, Interp.value?_not_eq_some.2 ⟨c, value, rfl⟩⟩
  | and _ ih =>
    obtain ⟨vs, values, bools⟩ := Interp.exists_values?_truths ih
    exact ⟨_, Interp.value?_op_eq_some.2 ⟨vs, values, if_pos bools⟩⟩
  | or _ ih =>
    obtain ⟨vs, values, bools⟩ := Interp.exists_values?_truths ih
    exact ⟨_, Interp.value?_op_eq_some.2 ⟨vs, values, if_pos bools⟩⟩
  | bound rel sides =>
    obtain ⟨m, n, left, right⟩ := value?_sides (A := A) sides
    exact ⟨_, Interp.value?_binary_eq_some.2 ⟨_, _, left, right, Interp.operate_num rel m n⟩⟩

/-- The polynomials of a name and a literal differ by what the numbers do. -/
theorem term_sides {a b : Expr} (sides : NameAndLiteral sorts a b ∨ NameAndLiteral sorts b a)
    {m n : Int} (left : (L.assignment.interp sorts).value? a = some (.num m))
    (right : (L.assignment.interp sorts).value? b = some (.num n)) :
    ∃ p q, (term a).result = .ok p ∧ (term b).result = .ok q ∧
      L.value (p - q) = (m : Rat) - n := by
  have ordered : ∀ x, (Poly.symbol x).Ordered := fun _ => Poly.ordered_ofAtom _
  rcases sides with ⟨sort, literal⟩ | ⟨sort, literal⟩
  · rw [value?_name, sort] at left
    cases left
    cases literal.value?.symm.trans right
    refine ⟨_, _, rfl, literal.term, ?_⟩
    rw [Loose.value_sub_const (ordered _), L.value_symbol]
    rfl
  · rw [value?_name, sort] at right
    cases right
    cases literal.value?.symm.trans left
    refine ⟨_, _, literal.term, rfl, ?_⟩
    rw [Poly.sub_swap (ordered _) (Poly.ordered_const _),
      Loose.value_neg ((ordered _).sub (Poly.ordered_const _)), Loose.value_sub_const (ordered _),
      L.value_symbol, neg_sub]
    rfl

/-- In a loose model the predicate has the truth value that it has under its assignment. -/
theorem truthIn (h : NameBounds sorts e) {c : Bool}
    (value : (L.assignment.interp sorts).value? e = some (.bool c)) : TruthIn L e c := by
  induction h generalizing c with
  | bool b =>
    cases value
    exact ⟨_, rfl, Formula.holdsIn_const⟩
  | name sort =>
    rw [value?_name, sort] at value
    cases value
    exact ⟨_, rfl, Formula.holdsIn_prop⟩
  | not _ ih =>
    obtain ⟨b, operand, eq⟩ := Interp.value?_not_eq_some.1 value
    cases eq
    obtain ⟨f, result, holds⟩ := ih operand
    refine ⟨.not f, Attempt.bind_eq_ok.2 ⟨f, result, rfl⟩, ?_⟩
    rw [Formula.holdsIn_not, holds]
    simp
  | and _ ih =>
    obtain ⟨sorted, all⟩ := Interp.value?_and value
    obtain ⟨fs, formulas, every, -⟩ := TruthIn.operands_of_values sorted ih
    refine ⟨.and fs, Attempt.bind_eq_ok.2 ⟨fs, formulas, rfl⟩, ?_⟩
    rw [Formula.holdsIn_and, every, all]
  | or _ ih =>
    obtain ⟨sorted, any⟩ := Interp.value?_or value
    obtain ⟨fs, formulas, -, some⟩ := TruthIn.operands_of_values sorted ih
    refine ⟨.or fs, Attempt.bind_eq_ok.2 ⟨fs, formulas, rfl⟩, ?_⟩
    rw [Formula.holdsIn_or, some, any]
  | @bound o a b rel sides =>
    have shapes : ¬((o = .eq ∨ o = .ne) ∧ (a.isBoolean = true ∨ b.isBoolean = true)) := by
      rcases sides with ⟨-, literal⟩ | ⟨-, literal⟩ <;>
        simp [Expr.isBoolean.eq_def (.ident _), literal.isBoolean]
    obtain ⟨m, n, left, right⟩ := value?_sides (A := L.assignment) sides
    obtain ⟨p, q, first, second, difference⟩ := term_sides sides left right
    cases (Interp.value?_binary_eq_some.2
      ⟨_, _, left, right, Interp.operate_num rel m n⟩).symm.trans value
    refine ⟨Constraint.ofComparison o p q, ?_, ?_⟩
    · rw [formula_relation rel, if_neg shapes]
      exact Attempt.bind_eq_ok.2 ⟨p, first, Attempt.bind_eq_ok.2 ⟨q, second, rfl⟩⟩
    · rw [Loose.holdsIn_ofComparison rel (wellFormed_term first).here
        (wellFormed_term second).here, difference, ← relate_intCast,
        relate_eq_of_sub_eq o (sub_zero _)]

/-- The predicate has a formula. -/
theorem exists_formula (h : NameBounds sorts e) : ∃ f, (formula e).result = .ok f := by
  obtain ⟨c, value⟩ := h.value? (A := (default : Loose .unsigned).assignment)
  obtain ⟨f, result, -⟩ := h.truthIn value
  exact ⟨f, result⟩

end NameBounds

/-- Every model of the first predicate is one of the second. -/
def NamesImply (sorts : String → ValueSort) (d : Domain) (a b : Expr) : Prop :=
  ∀ A : Assignment d, (A.interp sorts).Satisfies a → (A.interp sorts).Satisfies b

namespace NamesImply

/-- What holds of all models holds in all loose models of the canonical trees. -/
theorem holdsIn {a b : Expr} (imp : NamesImply sorts d a b) (ha : NameBounds sorts a)
    (hb : NameBounds sorts b) {f g : Formula} (hf : a.canonical.toFormula.result = .ok f)
    (hg : b.canonical.toFormula.result = .ok g) (L : Loose d) (holds : f.HoldsIn L) :
    g.HoldsIn L := by
  have lawful := (L.assignment.reference sorts).toLawful
  obtain ⟨c, value⟩ := ha.value? (A := L.assignment)
  have truth := ha.canonical.truthIn ((lawful.refines_canonical a).value value)
  obtain rfl : c = true := truth.unique ⟨f, hf, by simpa using holds⟩
  obtain ⟨g', result, holds'⟩ :=
    hb.canonical.truthIn ((lawful.refines_canonical b).value (imp L.assignment value))
  cases result.symm.trans hg
  exact holds'.2 rfl

end NamesImply

namespace Settings

variable {settings : Settings} {first second : String} {e₁ e₂ : Expr}

/-- Each direction is claimed exactly if it holds. -/
theorem claims_nameBounds (read₁ : Expr.ofText (settings.expand first) = .ok e₁)
    (read₂ : Expr.ofText (settings.expand second) = .ok e₂) (h₁ : NameBounds sorts e₁)
    (h₂ : NameBounds sorts e₂) (answered : settings.Answered first second) :
    ∃ forward backward,
      settings.compare (.refutation .elimination) first second = .ofDirections forward backward ∧
      (forward = true ↔ NamesImply sorts settings.domain e₁ e₂) ∧
      (backward = true ↔ NamesImply sorts settings.domain e₂ e₁) := by
  have sound := fun A : Assignment settings.domain =>
    refutation_claims (Solver.elimination_soundAt (A.reference sorts)) (A.reference sorts)
      read₁ read₂ h₁.value? h₂.value?
  obtain ⟨f, hf⟩ := h₁.canonical.exists_formula
  obtain ⟨g, hg⟩ := h₂.canonical.exists_formula
  have verdict := compare_refutation .elimination read₁ read₂ hf hg
  by_cases same : e₁.canonical = e₂.canonical
  · rw [if_pos same] at verdict
    rw [verdict] at sound
    exact ⟨true, true, verdict, iff_of_true rfl fun A => (sound A).1 (.inr rfl),
      iff_of_true rfl fun A => (sound A).2 (.inr rfl)⟩
  · rw [if_neg same] at verdict
    refine ⟨_, _, verdict, ⟨fun claimed A => (sound A).1 ?_, fun imp => ?_⟩,
      ⟨fun claimed A => (sound A).2 ?_, fun imp => ?_⟩⟩
    · rw [verdict, Verdict.claimsForward_ofDirections]
      exact claimed
    · exact refute_isSome_of_loose (Conversion.wellFormed_formula hf)
        (Conversion.wellFormed_formula hg) (fun _ asked =>
        answered.query? read₁ read₂ same hf hg (.inl asked)) (imp.holdsIn h₁ h₂ hf hg)
    · rw [verdict, Verdict.claimsBackward_ofDirections]
      exact claimed
    · exact refute_isSome_of_loose (Conversion.wellFormed_formula hg)
        (Conversion.wellFormed_formula hf) (fun _ asked =>
        answered.query? read₁ read₂ same hf hg (.inr asked)) (imp.holdsIn h₂ h₁ hg hf)

/-- The verdict on two predicates that join boolean names and comparisons of names with literals is
exact, as long as no call of the elimination runs out of its budget. -/
theorem compare_nameBounds (settings : Settings) (first second : String)
    (sorts : String → ValueSort) {e₁ e₂ : Expr}
    (read₁ : Expr.ofText (settings.expand first) = .ok e₁)
    (read₂ : Expr.ofText (settings.expand second) = .ok e₂) (h₁ : NameBounds sorts e₁)
    (h₂ : NameBounds sorts e₂) (answered : settings.Answered first second) :
    let verdict := settings.compare (.refutation .elimination) first second
    (verdict = .equivalent ↔ ∀ A : Assignment settings.domain,
      (A.interp sorts).Satisfies e₁ ↔ (A.interp sorts).Satisfies e₂) ∧
    (verdict = .firstStronger ↔
      NamesImply sorts settings.domain e₁ e₂ ∧ ¬NamesImply sorts settings.domain e₂ e₁) ∧
    (verdict = .secondStronger ↔
      NamesImply sorts settings.domain e₂ e₁ ∧ ¬NamesImply sorts settings.domain e₁ e₂) ∧
    (verdict = .incomparable ↔
      ¬NamesImply sorts settings.domain e₁ e₂ ∧ ¬NamesImply sorts settings.domain e₂ e₁) := by
  obtain ⟨forward, backward, verdict, holds, holds'⟩ :=
    claims_nameBounds read₁ read₂ h₁ h₂ answered
  have both : (∀ A : Assignment settings.domain,
      (A.interp sorts).Satisfies e₁ ↔ (A.interp sorts).Satisfies e₂) ↔
      NamesImply sorts settings.domain e₁ e₂ ∧ NamesImply sorts settings.domain e₂ e₁ := by
    simp only [NamesImply, ← forall_and, iff_iff_implies_and_implies]
  dsimp only
  rw [both, ← holds, ← holds', verdict]
  cases forward <;> cases backward <;> simp [Verdict.ofDirections]

/-- The name `p` is boolean, the others are integers. -/
def flagAndNumbers (name : String) : ValueSort := if name = "p" then .boolean else .integer

set_option maxRecDepth 4000 in
theorem compare_nameBounds_flagged : Settings.compare {} (.refutation .elimination) "p && x < 3"
    "!(1 <= x)" = .incomparable := by
  have read₁ : Expr.ofText "p && x < 3" =
      .ok (.op .and [.ident "p", .op .lt [.ident "x", .num "3"]]) := by
    cbv
  have read₂ : Expr.ofText "!(1 <= x)" = .ok (.not (.op .le [.num "1", .ident "x"])) := by
    cbv
  have answers : ((queries {} "p && x < 3" "!(1 <= x)").all fun query =>
      (Solver.elimination.check .unsigned {} query).value ≠ .unknown) = true := by
    cbv
  have sides : ∀ (digits : String) (n : Nat), Numeral.value? digits = some (n : Rat) →
      NameAndLiteral flagAndNumbers (.ident "x") (.num digits) := fun digits n value =>
    .mk rfl (.num value)
  have h₁ : NameBounds flagAndNumbers (.op .and [.ident "p", .op .lt [.ident "x", .num "3"]]) :=
    .and (List.forall_mem_cons.2 ⟨.name rfl, List.forall_mem_singleton.2
      (.bound rfl (.inl (sides "3" 3 (by cbv))))⟩)
  have h₂ : NameBounds flagAndNumbers (.not (.op .le [.num "1", .ident "x"])) :=
    .not (.bound rfl (.inr (sides "1" 1 (by cbv))))
  have exact := compare_nameBounds {} _ _ flagAndNumbers read₁ read₂ h₁ h₂ fun query asked =>
    of_decide_eq_true (List.all_eq_true.1 answers query asked)
  let set : Assignment .unsigned := ⟨fun _ => true, fun _ => 2, fun _ _ => by decide⟩
  let clear : Assignment .unsigned := ⟨fun _ => false, fun _ => 0, fun _ _ => by decide⟩
  refine exact.2.2.2.2 ⟨fun imp => ?_, fun imp => ?_⟩
  · have fails : (set.interp flagAndNumbers).value? (.not (.op .le [.num "1", .ident "x"])) =
        some (.bool false) := by
      cbv
    cases fails.symm.trans (imp set (by cbv))
  · have fails : (clear.interp flagAndNumbers).value?
        (.op .and [.ident "p", .op .lt [.ident "x", .num "3"]]) = some (.bool false) := by
      cbv
    cases fails.symm.trans (imp clear (by cbv))

end Settings
end PredicateStrength
