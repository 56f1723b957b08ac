import Mathlib
import PredicateStrength.Formula.Simplify
import PredicateStrength.Proofs.Poly.Identity
import PredicateStrength.Proofs.Solver.Witness

/-!
# Satisfiable answers have relaxed models

A relaxed model gives truth values to the atoms and rational numbers to the monomials, each
monomial being an unknown of its own. What makes it more than any solution of the inequalities of
a case is that it also obeys the facts about all columns, those that the facts bring in included:
non-negative monomials are at least zero, and quotients and remainders lie within their bounds.
No integers are claimed: constants were rounded on the way, but the columns take rational values.

The normal form is that of the formula with its negations pushed inward (`Nnf.ofFormula_negate`).

Main statement: `exists_relaxed_model_of_sat`.
-/
namespace PredicateStrength

namespace Nnf

theorem ofFormula_anyOf (cs : List Constraint) :
    ofFormula true (.anyOf (cs.map .constraint)) = anyConstraint cs := by
  match cs with
  | [] => rfl
  | [_] => rfl
  | c :: e :: cs =>
    show Nnf.any (ofFormulas true ((c :: e :: cs).map .constraint)) = .any _
    rw [ofFormulas_eq_map, List.map_map]
    rfl

mutual
/-- The normal form of the negation is that of the formula with the negation pushed inward. -/
theorem ofFormula_negate : ∀ f : Formula, ofFormula true f.negate = ofFormula false f
  | .const b => by cases b <;> rfl
  | .prop _ | .not _ => rfl
  | .constraint c => ofFormula_anyOf c.complement
  | .and fs => congrArg Nnf.any (ofFormulas_negateAll fs)
  | .or fs => congrArg Nnf.all (ofFormulas_negateAll fs)

theorem ofFormulas_negateAll : ∀ fs : List Formula,
    ofFormulas true (Formula.negateAll fs) = ofFormulas false fs
  | [] => rfl
  | f :: fs => by
    rw [Formula.negateAll, ofFormulas, ofFormulas, ofFormula_negate f, ofFormulas_negateAll fs]
end

end Nnf

namespace Solver

variable {d : Domain} {l : Limits} {cs : List Constraint} {w : Monomial → Rat}

/-- What the domain says about the values of the columns. Over all integers it says nothing. -/
structure ObeysFacts (columns : List Monomial) (w : Monomial → Rat) : Prop where
  nonneg : ∀ m ∈ columns, m.isNonneg = true → 0 ≤ w m
  quotient : ∀ (p q : Poly) (k : Int), .ofAtom (.quot p q) ∈ columns → p.isNonneg = true →
    q.integer? = some k → 0 < k →
    k * w (.ofAtom (.quot p q)) ≤ p.valueAt w ∧
      p.valueAt w ≤ k * w (.ofAtom (.quot p q)) + (k - 1)
  remainder_le : ∀ p q : Poly, .ofAtom (.rem p q) ∈ columns → p.isNonneg = true →
    w (.ofAtom (.rem p q)) ≤ p.valueAt w
  remainder_lt : ∀ (p q : Poly) (k : Int), .ofAtom (.rem p q) ∈ columns →
    q.integer? = some k → 0 < k → w (.ofAtom (.rem p q)) ≤ k - 1
  /-- What the facts compare a column with has columns itself. -/
  closed : ∀ (a : Atom) (p : Poly), .ofAtom a ∈ columns → numerator? a = some p →
    ∀ m ∈ p.monomials, m.isUnit = false → m ∈ columns

theorem positiveInteger?_of_integer? {q : Poly} {k : Int} (integer : q.integer? = some k)
    (positive : 0 < k) : positiveInteger? q = some k := by
  rw [positiveInteger?, integer, Option.filter_some, if_pos (by simpa using positive)]

theorem atom?_ofAtom (a : Atom) : (Monomial.ofAtom a).atom? = some a := rfl

theorem mem_monomialFacts {a : Atom} {p : Poly} (h : p ∈ atomFacts a) :
    p ∈ monomialFacts .unsigned (.ofAtom a) :=
  List.mem_append_right _ h

theorem Relaxes.obeysFacts (h : Relaxes .unsigned cs w) :
    ObeysFacts (relaxedColumns .unsigned cs) w where
  nonneg m _ := h.nonneg rfl m
  quotient p q k column nonneg integer positive := by
    have facts : atomFacts (.quot p q) =
        [(Poly.ofAtom (.quot p q)).scale k - p,
          p - (Poly.ofAtom (.quot p q)).scale k - .const (k - 1 : Int)] := by
      rw [atomFacts, nonneg, positiveInteger?_of_integer? integer positive]
    have below := h.facts _ column _ (mem_monomialFacts (facts ▸ List.mem_cons_self))
    have above := h.facts _ column _ (mem_monomialFacts
      (facts ▸ List.mem_cons_of_mem _ List.mem_cons_self))
    rw [Poly.valueAt_sub, Poly.valueAt_scale, Poly.valueAt_ofAtom] at below
    rw [Poly.valueAt_sub, Poly.valueAt_sub, Poly.valueAt_scale, Poly.valueAt_ofAtom,
      Poly.valueAt_const w h.unit] at above
    push_cast at above
    exact ⟨by linarith, by linarith⟩
  remainder_le p q column nonneg := by
    have fact : Poly.ofAtom (.rem p q) - p ∈ atomFacts (.rem p q) := by
      simp [atomFacts, nonneg]
    have below := h.facts _ column _ (mem_monomialFacts fact)
    rw [Poly.valueAt_sub, Poly.valueAt_ofAtom] at below
    linarith
  remainder_lt p q k column integer positive := by
    have fact : Poly.ofAtom (.rem p q) - .const (k - 1 : Int) ∈ atomFacts (.rem p q) := by
      simp [atomFacts, positiveInteger?_of_integer? integer positive]
    have below := h.facts _ column _ (mem_monomialFacts fact)
    rw [Poly.valueAt_sub, Poly.valueAt_ofAtom, Poly.valueAt_const w h.unit] at below
    push_cast at below
    linarith
  closed a p column numerator m mem unit := by
    refine related_subset_closure .unsigned _ _ (fun k hk => .inl hk) _ column m ?_
    exact mem_related_unsigned (atom?_ofAtom a) numerator mem unit

theorem mem_monomials_sub_const {p : Poly} (hp : p.Ordered) (c : Rat) {m : Monomial}
    (mem : m ∈ p.monomials) (unit : m.isUnit = false) : m ∈ (p - .const c).monomials := by
  obtain ⟨t, ht, rfl⟩ := List.mem_map.1 mem
  have linear : t ∈ (p - .const c).withoutConstant.terms := by
    rw [Poly.withoutConstant_sub_const hp]
    exact List.mem_filter.2 ⟨ht, by simp [unit]⟩
  exact List.mem_map_of_mem (List.mem_filter.1 linear).1

theorem mem_monomials_const_sub {p : Poly} (hp : p.Ordered) (c : Rat) {m : Monomial}
    (mem : m ∈ p.monomials) (unit : m.isUnit = false) : m ∈ (.const c - p : Poly).monomials := by
  have negated : (.const c - p : Poly).monomials = (p - .const c).monomials := by
    rw [Poly.sub_swap hp (Poly.ordered_const c), Poly.monomials, Poly.monomials, Poly.terms_neg,
      List.map_map]
    rfl
  exact negated ▸ mem_monomials_sub_const hp c mem unit

/-- The monomials of a constraint with an end are columns. -/
theorem mem_relaxedColumns {p : Poly} {lo hi : Option Int} (hp : p.Ordered)
    (mem : ⟨p, .range lo hi⟩ ∈ cs) (bounded : Bound.range lo hi ≠ .range none none)
    {m : Monomial} (hm : m ∈ p.monomials) (unit : m.isUnit = false) :
    m ∈ relaxedColumns d cs := by
  have some_inequality : ∃ q ∈ inequalities ⟨p, .range lo hi⟩, m ∈ q.monomials := by
    cases hi with
    | some b =>
      exact ⟨p - .const b, by simp [inequalities], mem_monomials_sub_const hp b hm unit⟩
    | none =>
      cases lo with
      | some b =>
        exact ⟨.const b - p, by simp [inequalities], mem_monomials_const_sub hp b hm unit⟩
      | none => exact absurd rfl bounded
  obtain ⟨q, hq, hmq⟩ := some_inequality
  exact subset_closure d _ _ m
    (mem_mentioned.2 ⟨⟨q, List.mem_flatMap.2 ⟨_, mem, hq⟩, hmq⟩, unit⟩)

theorem Side.separated {c e : Constraint} (h : Side c e) (relaxes : Relaxes d cs w)
    (mem : e ∈ cs) : e.bound.Separates (e.poly.valueAt w) := by
  cases h with
  | range => exact relaxes.admits mem
  | below => exact relaxes.admits mem
  | above => exact relaxes.admits mem

theorem Side.mem_relaxedColumns {c e : Constraint} (h : Side c e) (wf : c.poly.WellFormed)
    (mem : e ∈ cs) (bounded : e.bound ≠ .range none none) {m : Monomial}
    (hm : m ∈ e.poly.monomials) (unit : m.isUnit = false) : m ∈ relaxedColumns d cs := by
  cases h with
  | range => exact Solver.mem_relaxedColumns wf.here mem bounded hm unit
  | below => exact Solver.mem_relaxedColumns wf.here mem bounded hm unit
  | above => exact Solver.mem_relaxedColumns wf.here mem bounded hm unit

theorem exists_mem_of_side {es : List Constraint} (h : List.Forall₂ Side cs es) :
    ∀ e ∈ es, ∃ c ∈ cs, Side c e := by
  induction h with
  | nil => simp
  | @cons c e cs es side _ ih =>
    intro k hk
    rcases List.mem_cons.1 hk with rfl | hk
    · exact ⟨c, by simp, side⟩
    · obtain ⟨c', hc', side'⟩ := ih k hk
      exact ⟨c', List.mem_cons_of_mem _ hc', side'⟩

/-- A satisfiable answer has a relaxed model. There is a branch of the search, that is constraints
that make the formula true in negation normal form, together with truth values of the atoms. Each
disequality of the branch is one of its two sides; under rational values of the monomials all
these constraints hold, and so does the normal form, with every value that is left out at a
distance of at least one. The monomials of the constraints are among the columns, and in the
unsigned domain the values obey the facts about all columns. -/
theorem exists_relaxed_model_of_sat (d : Domain) (l : Limits) {f : Formula} (wf : f.WellFormed)
    (sat : (elimination.check d l f).value = .sat) :
    ∃ (truth : Atom → Bool) (w : Monomial → Rat) (branch sides : List Constraint),
      (Nnf.ofFormula true f).HoldsBy truth (· ∈ branch) ∧ List.Forall₂ Side branch sides ∧
      w .unit = 1 ∧ (∀ c ∈ sides, c.bound.Separates (c.poly.valueAt w)) ∧
      (∀ c ∈ branch, c.bound.Separates (c.poly.valueAt w)) ∧
      (Nnf.ofFormula true f).HoldsBy truth (fun c => c.bound.Separates (c.poly.valueAt w)) ∧
      (∀ c ∈ sides, c.bound ≠ .range none none →
        ∀ m ∈ c.poly.monomials, m.isUnit = false → m ∈ relaxedColumns d sides) ∧
      (d = .unsigned → ObeysFacts (relaxedColumns d sides) w) := by
  obtain ⟨truth, branch, sides, w, polys, each, relaxes, holds⟩ := exists_case_of_sat wf sat
  have separated : ∀ c ∈ branch, c.bound.Separates (c.poly.valueAt w) := fun c hc => by
    obtain ⟨e, he, side⟩ := exists_side_of_mem each c hc
    exact side.separates relaxes he
  refine ⟨truth, w, branch, sides, holds _ fun _ hc => hc, each, relaxes.unit, fun e he => ?_,
    separated, holds _ separated, fun e he bounded m hm unit => ?_, ?_⟩
  · obtain ⟨c, _, side⟩ := exists_mem_of_side each e he
    exact side.separated relaxes he
  · obtain ⟨c, hc, side⟩ := exists_mem_of_side each e he
    exact side.mem_relaxedColumns (polys c hc) he bounded hm unit
  · rintro rfl
    exact relaxes.obeysFacts

/-- Half of a number is at least one, and the number is not two. -/
def halvedPair : Formula :=
  .and [.constraint ⟨.ofAtom (.quot (.ofAtom (.symbol "x")) (.const 2)), .range (some 1) none⟩,
    .constraint ⟨.ofAtom (.symbol "x"), .ne 2⟩]

set_option maxRecDepth 4000 in
/-- The number is two or more because of its half, and three or more as it is not two. -/
theorem exists_relaxed_model_halvedPair : (elimination.check .unsigned {} halvedPair).value = .sat ∧
    ∃ truth w branch sides,
      (Nnf.ofFormula true halvedPair).HoldsBy truth (· ∈ branch) ∧
      List.Forall₂ Side branch sides ∧ (∀ c ∈ branch, c.bound.Separates (c.poly.valueAt w)) ∧
      ObeysFacts (relaxedColumns .unsigned sides) w := by
  have sat : (elimination.check .unsigned {} halvedPair).value = .sat := by cbv
  have wf : halvedPair.WellFormed := by
    have x : (Poly.ofAtom (.symbol "x")).WellFormed :=
      ⟨Poly.ordered_ofAtom _, ⟨trivial, trivial⟩, trivial⟩
    have half : (Atom.quot (.ofAtom (.symbol "x")) (.const 2)).Everywhere Poly.Ordered :=
      ⟨x, Poly.everywhere_iff.2 ⟨Poly.ordered_const 2, by simp⟩⟩
    have quotient : (Poly.ofAtom (.quot (.ofAtom (.symbol "x")) (.const 2))).WellFormed :=
      ⟨Poly.ordered_ofAtom _, ⟨half, trivial⟩, trivial⟩
    exact ⟨quotient, x, trivial⟩
  obtain ⟨truth, w, branch, sides, holds, each, -, -, separated, -, -, facts⟩ :=
    exists_relaxed_model_of_sat .unsigned {} wf sat
  exact ⟨sat, truth, w, branch, sides, holds, each, separated, facts rfl⟩

end Solver
end PredicateStrength
