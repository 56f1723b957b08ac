import Mathlib
import PredicateStrength.Proofs.Expr.Rearrangement
import PredicateStrength.Rule

/-!
# A connective contains its operands

A round of passes treats the operands of `&&` and of `||` apart from one another. Up to and
including flattening it brings up the connectives that each operand has below its root, and from
there on it neither makes nor breaks a connective. So what a round leaves of a conjunction are,
in some order, the conjuncts that it leaves of each operand alone, and this goes on round by round,
also when a conjunct shows only in a later one. No appeal to a settled tree is made: a canonical
form that the limit of rounds cut short contains its operands as well.

Main statements: the operands of a canonical conjunction or disjunction are those of the canonical
forms that it was made of (`canonical_connective`), so the rules always see that a conjunction
implies its parts and that a part implies a disjunction (`implied_of_contained`).
-/
namespace PredicateStrength

open PredicateStrength.Expr

namespace Canonical

variable {o : Operator} {e : Expr} {args : List Expr} {rule : Expr → Expr}

theorem operands_joined (o : Operator) (args : List Expr) : operands o (.op o args) = args := by
  rw [operands, if_pos rfl]

theorem operands_of_ne (other : ∀ args, e ≠ .op o args) : operands o e = [e] := by
  cases e with
  | op p args =>
    apply if_neg
    rintro rfl
    exact other args rfl
  | _ => rfl

/-- The rule reorders the operands of `o` at most, and makes no use of `o` where there is none. -/
structure Preserves (o : Operator) (rule : Expr → Expr) : Prop where
  joined : ∀ args, ∃ args', rule (.op o args) = .op o args' ∧ args'.Perm args
  other : ∀ e, (∀ args, e ≠ .op o args) → ∀ args, rule e ≠ .op o args

namespace Preserves

/-- A rule that leaves the uses of `o` alone and results in none. -/
theorem of_fixed (fixed : ∀ args, rule (.op o args) = .op o args)
    (other : ∀ e, (∀ args, e ≠ .op o args) → ∀ args, rule e ≠ .op o args) : Preserves o rule where
  joined args := ⟨args, fixed args, .refl args⟩
  other := other

/-- What the rule makes of the operands, it makes of each of them alone. -/
theorem operands_bottomUp (h : Preserves o rule) (e : Expr) :
    (operands o (bottomUp rule e)).Perm ((operands o e).map (bottomUp rule)) := by
  by_cases joined : ∃ args, e = .op o args
  · obtain ⟨args, rfl⟩ := joined
    obtain ⟨args', same, perm⟩ := h.joined (args.map (bottomUp rule))
    rw [bottomUp_op, same, operands_joined, operands_joined]
    exact perm
  · have apart : ∀ args, e ≠ .op o args := fun args same => joined ⟨args, same⟩
    have kept : ∀ args, e.mapParts (bottomUp rule) ≠ .op o args := by
      intro args same
      cases e with
      | op p args' =>
        cases same
        exact apart args' rfl
      | _ => cases same
    rw [operands_of_ne apart, bottomUp_eq, operands_of_ne (h.other _ kept), List.map_singleton,
      bottomUp_eq]

end Preserves

theorem preserves_normalizeSum (logical : o.isLogical = true) : Preserves o normalizeSum := by
  apply Preserves.of_fixed
  · intro args
    cases o <;> first | rfl | cases logical
  · intro e apart args same
    unfold normalizeSum at same
    split at same
    · cases same
      cases logical
    · exact apart args same

theorem preserves_sortCommutative (logical : o.isLogical = true) : Preserves o sortCommutative where
  joined args := by
    have commutative : o.isCommutative = true := by
      cases o <;> first | rfl | cases logical
    refine ⟨sorted args, ?_, Sorting.sort_perm cmp args⟩
    rw [sortCommutative, if_pos commutative]
  other e apart args same := by
    unfold sortCommutative at same
    split at same
    · next p args' =>
      cases same
      exact apart args' rfl
    · exact apart args same

theorem preserves_orderEquality (logical : o.isLogical = true) : Preserves o orderEquality := by
  apply Preserves.of_fixed
  · intro args
    cases o <;> first | rfl | cases logical
  · intro e apart args same
    unfold orderEquality at same
    split at same
    · split at same <;> cases same <;> cases logical
    · split at same <;> cases same <;> cases logical
    · exact apart args same

theorem flagTest?_ne {f : Expr} (test : flagTest? e = some f) (args : List Expr) :
    f ≠ .op o args := by
  unfold flagTest? at test
  split at test
  · obtain ⟨⟨mask, predicate⟩, -, found⟩ := List.exists_of_findSome?_eq_some test
    dsimp only at found
    split at found
    · cases found
      exact nofun
    · split at found
      · cases found
        exact nofun
      · cases found
  · cases test

theorem preserves_expandFlag (logical : o.isLogical = true) : Preserves o expandFlag := by
  apply Preserves.of_fixed
  · intro args
    cases o <;> first | rfl | cases logical
  · intro e apart args same
    unfold expandFlag at same
    split at same
    · next a b =>
      cases test : (comparedWithZero? a b).bind flagTest? with
      | none =>
        rw [test] at same
        cases same
        cases logical
      | some f =>
        rw [test] at same
        cases same
    · next a b =>
      cases test : (comparedWithZero? a b).bind flagTest? with
      | none =>
        rw [test] at same
        cases same
        cases logical
      | some f =>
        rw [test] at same
        obtain ⟨masked, -, found⟩ := Option.bind_eq_some_iff.1 test
        exact flagTest?_ne found args same
    · exact apart args same

/-- The first half of a round, which brings up the connectives. -/
def opened (e : Expr) : Expr :=
  bottomUp flatten (bottomUp shiftSubtraction (bottomUp dropDoubleNegation
    (bottomUp foldBoolEquality (bottomUp expandIdiom e))))

/-- The second half of a round, which puts operands in order. -/
def arranged (e : Expr) : Expr :=
  bottomUp expandFlag (bottomUp orderEquality (bottomUp sortCommutative (bottomUp normalizeSum e)))

theorem arranged_opened (e : Expr) : arranged (opened e) = round e := (round_eq e).symm

/-- Opening a connective opens its operands and joins those that became the same connective. -/
theorem opened_joined (logical : o.isLogical = true) (args : List Expr) :
    opened (.op o args) = .op o (args.flatMap fun x => operands o (opened x)) := by
  have rest : o.isAssociative = true ∧ o.isRelational = false ∧ o ≠ .eq ∧ o ≠ .ne := by
    cases o <;> first | decide | cases logical
  obtain ⟨associative, unrelated, notEq, notNe⟩ := rest
  have folded : ∀ as, foldBoolEquality (.op o as) = .op o as := fun as =>
    foldBoolEquality_of_ne (.inl ⟨notEq, notNe⟩)
  have shifted : ∀ as, shiftSubtraction (.op o as) = .op o as := fun as =>
    shiftSubtraction_of_ne (.inl unrelated)
  simp only [opened, bottomUp_op, expandIdiom, folded, dropDoubleNegation, shifted, flatten,
    if_pos associative, splice, List.map_map, List.flatMap_map, Function.comp_apply]

/-- Arranging a tree arranges its operands. -/
theorem operands_arranged (logical : o.isLogical = true) (e : Expr) :
    (operands o (arranged e)).Perm ((operands o e).map arranged) := by
  have flags := (preserves_expandFlag logical).operands_bottomUp
  have sides := (preserves_orderEquality logical).operands_bottomUp
  have order := (preserves_sortCommutative logical).operands_bottomUp
  have sums := (preserves_normalizeSum logical).operands_bottomUp
  have three := (order _).trans ((sums e).map (bottomUp sortCommutative))
  have two := (sides _).trans (three.map (bottomUp orderEquality))
  have all := (flags _).trans (two.map (bottomUp expandFlag))
  rw [List.map_map, List.map_map, List.map_map] at all
  exact all

/-- A round leaves of the operands what it leaves of each of them alone. -/
theorem operands_round (logical : o.isLogical = true) (e : Expr) :
    (operands o (round e)).Perm ((operands o e).flatMap fun x => operands o (round x)) := by
  by_cases joined : ∃ args, e = .op o args
  · obtain ⟨args, rfl⟩ := joined
    have each : ∀ x, (operands o (round x)).Perm ((operands o (opened x)).map arranged) :=
      fun x => arranged_opened x ▸ operands_arranged logical (opened x)
    refine (each _).trans ?_
    rw [opened_joined logical, operands_joined, operands_joined, List.map_flatMap]
    exact List.Perm.flatMap_left args fun x _ => (each x).symm
  · rw [operands_of_ne fun args same => joined ⟨args, same⟩, List.flatMap_singleton]

/-- A round leaves a connective one. -/
theorem exists_round_joined (logical : o.isLogical = true) (args : List Expr) :
    ∃ args', round (.op o args) = .op o args' := by
  have keeps {rule : Expr → Expr} (h : Preserves o rule) (as : List Expr) :
      ∃ as', bottomUp rule (.op o as) = .op o as' := by
    obtain ⟨as', same, -⟩ := h.joined (as.map (bottomUp rule))
    exact ⟨as', (bottomUp_op _ _ _).trans same⟩
  rw [← arranged_opened, opened_joined logical, arranged]
  obtain ⟨sums, same⟩ := keeps (preserves_normalizeSum logical)
    (args.flatMap fun x => operands o (opened x))
  rw [same]
  obtain ⟨order, same⟩ := keeps (preserves_sortCommutative logical) sums
  rw [same]
  obtain ⟨sides, same⟩ := keeps (preserves_orderEquality logical) order
  rw [same]
  exact keeps (preserves_expandFlag logical) sides

variable {p q : Expr}

/-- A step of the rounds: what has the operands of two trees keeps having them. -/
theorem operands_round_append (logical : o.isLogical = true)
    (h : (operands o e).Perm (operands o p ++ operands o q)) :
    (operands o (round e)).Perm (operands o (round p) ++ operands o (round q)) := by
  have spliced := h.flatMap_right fun x => operands o (round x)
  rw [List.flatMap_append] at spliced
  have parts := (operands_round logical p).append (operands_round logical q)
  exact (operands_round logical e).trans (spliced.trans parts.symm)

theorem iterate_round_joined (logical : o.isLogical = true) (n : Nat)
    (h : (operands o e).Perm (operands o p ++ operands o q)) (joined : ∃ args, e = .op o args) :
    (operands o (round^[n] e)).Perm (operands o (round^[n] p) ++ operands o (round^[n] q)) ∧
      ∃ args, round^[n] e = .op o args := by
  induction n generalizing e p q with
  | zero => exact ⟨h, joined⟩
  | succ n ih =>
    simp only [Function.iterate_succ_apply]
    apply ih (operands_round_append logical h)
    obtain ⟨args, rfl⟩ := joined
    exact exists_round_joined logical args

/-- The canonical form of a connective joins the operands of the canonical forms of its parts. -/
theorem canonical_connective (logical : o.isLogical = true) (p q : Expr) :
    ∃ args, (binary o p q).canonical = .op o args ∧
      args.Perm (operands o p.canonical ++ operands o q.canonical) := by
  have first : (operands o (round (binary o p q))).Perm
      (operands o (round p) ++ operands o (round q)) := by
    have each := operands_round logical (binary o p q)
    have parts : operands o (binary o p q) = [p, q] := operands_joined o [p, q]
    rwa [parts, List.flatMap_cons, List.flatMap_singleton] at each
  have later := iterate_round_joined logical 3 first (exists_round_joined logical [p, q])
  have rounds (e : Expr) : round^[3] (round e) = e.canonical :=
    (rounds_eq_iterate maxRounds e).symm
  rw [rounds, rounds, rounds] at later
  obtain ⟨perm, args, same⟩ := later
  rw [same, operands_joined] at perm
  exact ⟨args, same, perm⟩

end Canonical

namespace Rule

/-- A conjunction implies whatever consists of some of its operands. -/
theorem conjunctionElimination_of_subset {args : List Expr} {b : Expr}
    (h : ∀ x ∈ b.operands .and, x ∈ args) : conjunctionElimination (.op .and args) b = true := by
  simpa [conjunctionElimination] using h

/-- Whatever consists of some operands of a disjunction implies it. -/
theorem disjunctionIntroduction_of_subset {args : List Expr} {a : Expr}
    (h : ∀ x ∈ a.operands .or, x ∈ args) : disjunctionIntroduction a (.op .or args) = true := by
  simpa [disjunctionIntroduction] using h

end Rule

/-- For any two trees, some rule sees that the conjunction implies each of them, and some rule sees
that each of them implies the disjunction. -/
theorem implied_of_contained (p q : Expr) :
    (∃ r ∈ Rule.all, r.implies (binary .and p q).canonical p.canonical = true) ∧
    (∃ r ∈ Rule.all, r.implies (binary .and p q).canonical q.canonical = true) ∧
    (∃ r ∈ Rule.all, r.implies p.canonical (binary .or p q).canonical = true) ∧
    (∃ r ∈ Rule.all, r.implies q.canonical (binary .or p q).canonical = true) := by
  obtain ⟨conjuncts, conjunction, both⟩ := Canonical.canonical_connective (o := .and) rfl p q
  obtain ⟨disjuncts, disjunction, either⟩ := Canonical.canonical_connective (o := .or) rfl p q
  have elimination : ⟨"conjunction-elimination", Rule.conjunctionElimination⟩ ∈ Rule.all := by
    simp [Rule.all]
  have introduction : ⟨"disjunction-introduction", Rule.disjunctionIntroduction⟩ ∈ Rule.all := by
    simp [Rule.all]
  rw [conjunction, disjunction]
  refine ⟨⟨_, elimination, ?_⟩, ⟨_, elimination, ?_⟩, ⟨_, introduction, ?_⟩,
    ⟨_, introduction, ?_⟩⟩
  · exact Rule.conjunctionElimination_of_subset fun x mem =>
      both.mem_iff.2 (List.mem_append_left _ mem)
  · exact Rule.conjunctionElimination_of_subset fun x mem =>
      both.mem_iff.2 (List.mem_append_right _ mem)
  · exact Rule.disjunctionIntroduction_of_subset fun x mem =>
      either.mem_iff.2 (List.mem_append_left _ mem)
  · exact Rule.disjunctionIntroduction_of_subset fun x mem =>
      either.mem_iff.2 (List.mem_append_right _ mem)

end PredicateStrength
