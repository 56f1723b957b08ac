import Mathlib
import PredicateStrength.Proofs.LooseTruth

/-!
# What the rules settle, refutation settles

Both comparison rules relate trees whose formulas bound one and the same primitive polynomial. So
the loose models respect them, and with them all rules. Hence no loose model separates what a rule
relates, and the elimination, which would come up with one, refutes it.

Main statement: `Settings.refutation_of_rules`.
-/
namespace PredicateStrength

variable {d : Domain}

namespace Rule
open Conversion

variable {L : Loose d}

/-- Among comparisons of truth values only the same one is implied. -/
theorem eq_of_operatorImplies {o p : Operator} (h : operatorImplies o p = true)
    (ho : o = .eq ∨ o = .ne) (hp : p = .eq ∨ p = .ne) : o = p := by
  rcases ho with rfl | rfl <;> rcases hp with rfl | rfl <;> first | rfl | cases h

theorem relate_neg (o : Operator) (x : Rat) : relate o (-x) 0 = relate o.mirrored x 0 := by
  rw [relate_mirrored]
  exact relate_eq_of_sub_eq o (by ring)

theorem truthIn_relationalStrength {a b : Expr} (h : relationalStrength a b = true) :
    Implies (TruthIn L) a b := by
  unfold relationalStrength at h
  split at h
  · next o al ar p bl br ha hb =>
    obtain ⟨rfl, rel⟩ := Expr.relation?_eq_some.1 ha
    obtain ⟨rfl, rel'⟩ := Expr.relation?_eq_some.1 hb
    intro first c second
    have first := first.relation rel
    have second := second.relation rel'
    split at h
    · next same =>
      obtain ⟨rfl, rfl⟩ := same
      rcases first with ⟨⟨ho, shapes⟩, x, y, hx, hy, eq⟩ | ⟨s, t, left, right, eq⟩
      · rcases second with ⟨⟨hp, -⟩, x', y', hx', hy', rfl⟩ | ⟨s', t', left', right', -⟩
        · cases eq_of_operatorImplies h ho hp
          rw [eq, hx'.unique hx, hy'.unique hy]
        · exact (shapes.elim (term_isBoolean · left') (term_isBoolean · right')).elim
      · rcases second with ⟨⟨-, shapes⟩, -⟩ | ⟨s', t', left', right', rfl⟩
        · exact (shapes.elim (term_isBoolean · left) (term_isBoolean · right)).elim
        · cases left.symm.trans left'
          cases right.symm.trans right'
          exact relate_of_operatorImplies h eq.symm
    · split at h
      · next same =>
        obtain ⟨rfl, rfl⟩ := same
        rcases first with ⟨⟨ho, shapes⟩, x, y, hx, hy, eq⟩ | ⟨s, t, left, right, eq⟩
        · rcases second with ⟨⟨hp, -⟩, y', x', hy', hx', rfl⟩ | ⟨t', s', right', left', -⟩
          · have mirrored : p.mirrored = p := by rcases hp with rfl | rfl <;> rfl
            rw [mirrored] at h
            cases eq_of_operatorImplies h ho hp
            rw [eq, hx'.unique hx, hy'.unique hy, Bool.beq_comm]
          · exact (shapes.elim (term_isBoolean · left') (term_isBoolean · right')).elim
        · rcases second with ⟨⟨-, shapes⟩, -⟩ | ⟨t', s', right', left', rfl⟩
          · exact (shapes.elim (term_isBoolean · right) (term_isBoolean · left)).elim
          · cases left.symm.trans left'
            cases right.symm.trans right'
            have ordered := (wellFormed_term left).here
            have ordered' := (wellFormed_term right).here
            rw [Poly.sub_swap ordered ordered', Loose.value_neg (ordered.sub ordered'), relate_neg]
            exact relate_of_operatorImplies h eq.symm
      · cases h
  · cases h

/-- A comparison with a literal is true where its term lies in the region. -/
theorem truthIn_boundedTerm? {e t : Expr} {r : Region} (h : boundedTerm? e = some (t, r))
    {c : Bool} (value : TruthIn L e c) :
    ∃ p, (term t).result = .ok p ∧ c = r.contains (L.value p) := by
  unfold Rule.boundedTerm? at h
  split at h
  · cases h
  · next o lhs rhs relation =>
    obtain ⟨rfl, rel⟩ := Expr.relation?_eq_some.1 relation
    have value := value.relation rel
    split at h
    · next v literal =>
      cases h
      rcases value with ⟨-, -, -, -, ⟨f, result, -⟩, -⟩ | ⟨p, q, left, right, rfl⟩
      · exact absurd result (formula_literalValue? literal)
      · refine ⟨p, left, ?_⟩
        rw [term_literalValue? literal right, Loose.value_sub_const (wellFormed_term left).here,
          Region.contains_ofComparison rel]
        exact relate_eq_of_sub_eq o (sub_zero _)
    · next v literal =>
      cases h
      rcases value with ⟨-, -, -, ⟨f, result, -⟩, -⟩ | ⟨p, q, left, right, rfl⟩
      · exact absurd result (formula_literalValue? literal)
      · refine ⟨q, right, ?_⟩
        have ordered := (wellFormed_term right).here
        have rel' : o.mirrored.isRelational = true := by cases o <;> cases rel <;> rfl
        rw [term_literalValue? literal left, Poly.sub_swap ordered (Poly.ordered_const v),
          Loose.value_neg (ordered.sub (Poly.ordered_const v)), Loose.value_sub_const ordered,
          Region.contains_ofComparison rel', relate_neg]
        exact relate_eq_of_sub_eq _ (sub_zero _)
    · cases h

theorem truthIn_literalBound {a b : Expr} (h : literalBound a b = true) :
    Implies (TruthIn L) a b := by
  unfold literalBound at h
  split at h
  · next s r t q ha hb =>
    rw [Bool.and_eq_true, decide_eq_true_eq] at h
    obtain ⟨rfl, inside⟩ := h
    intro first c second
    obtain ⟨p, result, hp⟩ := truthIn_boundedTerm? ha first
    obtain ⟨p', result', rfl⟩ := truthIn_boundedTerm? hb second
    cases result.symm.trans result'
    exact Region.contains_of_within inside hp.symm
  · cases h

/-- The rules hold in every loose model. -/
theorem model_truthIn (L : Loose d) : Model (TruthIn L) where
  unique := TruthIn.unique
  and := TruthIn.and
  or := TruthIn.or
  relational := truthIn_relationalStrength
  bound := truthIn_literalBound

/-- What a rule relates no loose model separates. -/
theorem holdsIn_of_implies {r : Rule} (known : r ∈ Rule.all) {a b : Expr} {f g : Formula}
    (hf : a.toFormula.result = .ok f) (hg : b.toFormula.result = .ok g)
    (h : r.implies a b = true) (L : Loose d) (holds : f.HoldsIn L) : g.HoldsIn L := by
  obtain ⟨c, hc, truth⟩ := TruthIn.of_formula (L := L) hg
  exact hc.2 ((model_truthIn L).implies known h ⟨f, hf, by simpa using holds⟩ c truth)

end Rule

namespace Settings

variable {settings : Settings} {first second : String} {e₁ e₂ : Expr}

/-- What stands behind the forward direction of a comparison of two texts that can be read. -/
theorem forward_explain {method : Method} {p q : Predicate}
    (h₁ : (settings.read first).value = .ok p) (h₂ : (settings.read second).value = .ok q) :
    (settings.explain method first second).value.forward =
      if p.canonical = q.canonical then some .structural
      else (settings.settle method p q).value.forward := by
  rw [explain, Logged.value_bind, h₁]
  dsimp only
  rw [Logged.value_bind, h₂]
  dsimp only
  split <;> rfl

/-- Refuting the counterexample of the formulas settles the forward direction. -/
theorem forward_settle (settings : Settings) (solver : Solver) {p q : Predicate} {f g : Formula}
    (hf : p.canonical.toFormula.result = .ok f) (hg : q.canonical.toFormula.result = .ok g) :
    (settings.settle (.refutation solver) p q).value.forward =
      (settings.refute solver f g).value := by
  obtain ⟨kept, eq⟩ := settle_of_formulas settings solver hf hg
  rw [eq]
  rfl

/-- Refutation settles what the rules settle. -/
theorem forward_settle_of_rules {p q : Predicate} {f g : Formula}
    (hf : p.canonical.toFormula.result = .ok f) (hg : q.canonical.toFormula.result = .ok g)
    (answered : ∀ query, settings.query? f g = some query →
      (Solver.elimination.check settings.domain settings.limits query).value ≠ .unknown)
    (proved : (settings.settle .rules p q).value.forward.isSome = true) :
    (settings.settle (.refutation .elimination) p q).value.forward.isSome = true := by
  obtain ⟨r, known, implies⟩ := proveByRule_value proved
  rw [forward_settle settings .elimination hf hg]
  exact refute_isSome_of_loose (Conversion.wellFormed_formula hf)
    (Conversion.wellFormed_formula hg) answered (Rule.holdsIn_of_implies known hf hg implies)

/-- Refutation proves that one text implies another whenever the rules do, if both have formulas and
no call of the elimination runs out of its budget. -/
theorem refutation_of_rules (settings : Settings) (first second : String) {e₁ e₂ : Expr}
    (read₁ : Expr.ofText (settings.expand first) = .ok e₁)
    (read₂ : Expr.ofText (settings.expand second) = .ok e₂) {f g : Formula}
    (converted₁ : e₁.canonical.toFormula.result = .ok f)
    (converted₂ : e₂.canonical.toFormula.result = .ok g)
    (answered : settings.Answered first second)
    (proved : (settings.explain .rules first second).value.forward.isSome = true) :
    (settings.explain (.refutation .elimination) first second).value.forward.isSome = true := by
  obtain ⟨p, readP, hp⟩ := exists_read read₁
  obtain ⟨q, readQ, hq⟩ := exists_read read₂
  rw [forward_explain readP readQ] at proved ⊢
  by_cases same : p.canonical = q.canonical
  · rw [if_pos same]
    rfl
  · rw [if_neg same] at proved ⊢
    refine forward_settle_of_rules (hp ▸ converted₁) (hq ▸ converted₂) (fun _ asked => ?_) proved
    rw [hp, hq] at same
    exact answered.query? read₁ read₂ same converted₁ converted₂ (.inl asked)

set_option maxRecDepth 4000 in
theorem refutation_of_rules_clauses :
    (explain {} .rules "2 * x < 5 && f(x)" "paused || 2 * x <= 5").value.forward =
        some (.rule "clause-subsumption") ∧
      (explain {} (.refutation .elimination) "2 * x < 5 && f(x)"
        "paused || 2 * x <= 5").value.forward.isSome = true := by
  have proved : (explain {} .rules "2 * x < 5 && f(x)" "paused || 2 * x <= 5").value.forward =
      some (.rule "clause-subsumption") := by
    cbv
  have read₁ : Expr.ofText "2 * x < 5 && f(x)" =
      .ok (.op .and [.op .lt [.op .mul [.num "2", .ident "x"], .num "5"],
        .call (.ident "f") [.ident "x"]]) := by
    cbv
  have read₂ : Expr.ofText "paused || 2 * x <= 5" =
      .ok (.op .or [.ident "paused", .op .le [.op .mul [.num "2", .ident "x"], .num "5"]]) := by
    cbv
  have answers : ((queries {} "2 * x < 5 && f(x)" "paused || 2 * x <= 5").all fun query =>
      (Solver.elimination.check .unsigned {} query).value ≠ .unknown) = true := by
    cbv
  obtain ⟨f, converted₁⟩ : ∃ f, (Expr.toFormula (Expr.canonical (.op .and
      [.op .lt [.op .mul [.num "2", .ident "x"], .num "5"],
        .call (.ident "f") [.ident "x"]]))).result = .ok f := ⟨_, by cbv⟩
  obtain ⟨g, converted₂⟩ : ∃ g, (Expr.toFormula (Expr.canonical (.op .or
      [.ident "paused", .op .le [.op .mul [.num "2", .ident "x"], .num "5"]]))).result = .ok g :=
    ⟨_, by cbv⟩
  refine ⟨proved, refutation_of_rules {} _ _ read₁ read₂ converted₁ converted₂ ?_ ?_⟩
  · exact fun query asked => of_decide_eq_true (List.all_eq_true.1 answers query asked)
  · rw [proved]
    rfl

end Settings
end PredicateStrength
