import Mathlib
import PredicateStrength.Comparison
import PredicateStrength.Proofs.Formula.OfExpr
import PredicateStrength.Proofs.Formula.Simplify
import PredicateStrength.Proofs.Rule

/-!
# Claimed strength is true

A comparison of two texts that can be read claims a direction only if the canonical trees are
equal or the method settles that direction; canonical trees mean what the trees that were read
mean. Two predicates are well sorted if their names can be given sorts under which they are; then
they have truth values.

Main statements: what the rules claim holds under every rational interpretation
(`Settings.rules_sound`), and what refutation claims holds under every interpretation by integers,
if the solver is sound (`Settings.refutation_sound`).
-/
namespace PredicateStrength

namespace Verdict

/-- The first predicate is claimed to imply the second. -/
def ClaimsForward (v : Verdict) : Prop := v = .firstStronger ∨ v = .equivalent

/-- The second predicate is claimed to imply the first. -/
def ClaimsBackward (v : Verdict) : Prop := v = .secondStronger ∨ v = .equivalent

theorem claimsForward_ofDirections {forward backward : Bool} :
    (ofDirections forward backward).ClaimsForward ↔ forward = true := by
  cases forward <;> cases backward <;> simp [ofDirections, ClaimsForward]

theorem claimsBackward_ofDirections {forward backward : Bool} :
    (ofDirections forward backward).ClaimsBackward ↔ backward = true := by
  cases forward <;> cases backward <;> simp [ofDirections, ClaimsBackward]

end Verdict

namespace Interp

variable {K : Type} [CommRing K] [LinearOrder K] {I : Interp K}

/-- What holds of the canonical trees holds of the trees, if the second has a truth value. -/
theorem Lawful.satisfies_of_canonical [IsStrictOrderedRing K] (lawful : I.Lawful) {a b : Expr}
    (h : I.Implies a.canonical b.canonical) (sat : I.Satisfies a) {c : Bool}
    (value : I.value? b = some (.bool c)) : I.Satisfies b := by
  cases h ((lawful.refines_canonical a).value sat) c ((lawful.refines_canonical b).value value)
  exact value

/-- A predicate has a truth value. -/
theorem Respects.value?_bool {σ : Signature} (resp : I.Respects σ) {e : Expr}
    (sorted : σ.sort? e = some .boolean) : ∃ c, I.value? e = some (.bool c) := by
  obtain ⟨v, value, sort⟩ := resp.value? sorted
  obtain ⟨c, rfl⟩ := Value.isBool_iff_exists.1 (Value.sort_eq_boolean.1 sort)
  exact ⟨c, value⟩

end Interp

namespace Settings

variable {settings : Settings} {method : Method} {first second : String} {e₁ e₂ : Expr}

theorem read_value (h : Expr.ofText (settings.expand first) = .ok e₁) :
    (settings.read first).value = .ok ⟨first, settings.expand first, e₁, e₁.canonical⟩ := by
  simp [read, Predicate.read, h, bind, Except.bind, pure, Except.pure]

theorem exists_read (h : Expr.ofText (settings.expand first) = .ok e₁) :
    ∃ p : Predicate, (settings.read first).value = .ok p ∧ p.canonical = e₁.canonical :=
  ⟨_, read_value h, by dsimp only⟩

/-- The verdict on two texts that can be read. -/
theorem compare_eq (h₁ : Expr.ofText (settings.expand first) = .ok e₁)
    (h₂ : Expr.ofText (settings.expand second) = .ok e₂) :
    settings.compare method first second =
      if e₁.canonical = e₂.canonical then .equivalent
      else (settings.settle method ⟨first, settings.expand first, e₁, e₁.canonical⟩
        ⟨second, settings.expand second, e₂, e₂.canonical⟩).value.verdict := by
  rw [compare, explain, Logged.value_bind, read_value h₁]
  dsimp only
  rw [Logged.value_bind, read_value h₂]
  dsimp only
  split <;> rfl

/-- The claims of a comparison are true if those of the method about the two predicates are. -/
theorem compare_sound_at {K : Type} [CommRing K] [LinearOrder K] [IsStrictOrderedRing K]
    {I : Interp K} (lawful : I.Lawful)
    (read₁ : Expr.ofText (settings.expand first) = .ok e₁)
    (read₂ : Expr.ofText (settings.expand second) = .ok e₂)
    (truth₁ : ∃ c, I.value? e₁ = some (.bool c)) (truth₂ : ∃ c, I.value? e₂ = some (.bool c))
    (settled : ∀ p q : Predicate, p.canonical = e₁.canonical → q.canonical = e₂.canonical →
      ((settings.settle method p q).value.verdict.ClaimsForward →
        I.Implies e₁.canonical e₂.canonical) ∧
      ((settings.settle method p q).value.verdict.ClaimsBackward →
        I.Implies e₂.canonical e₁.canonical)) :
    ((settings.compare method first second).ClaimsForward → I.Satisfies e₁ → I.Satisfies e₂) ∧
      ((settings.compare method first second).ClaimsBackward →
        I.Satisfies e₂ → I.Satisfies e₁) := by
  obtain ⟨c₁, value₁⟩ := truth₁
  obtain ⟨c₂, value₂⟩ := truth₂
  rw [compare_eq read₁ read₂]
  by_cases same : e₁.canonical = e₂.canonical
  · have forward : I.Implies e₁.canonical e₂.canonical := by rw [same]; exact .refl _
    have backward : I.Implies e₂.canonical e₁.canonical := by rw [same]; exact .refl _
    exact ⟨fun _ sat => lawful.satisfies_of_canonical forward sat value₂,
      fun _ sat => lawful.satisfies_of_canonical backward sat value₁⟩
  · rw [if_neg same]
    obtain ⟨forward, backward⟩ := settled ⟨first, settings.expand first, e₁, e₁.canonical⟩
      ⟨second, settings.expand second, e₂, e₂.canonical⟩ (by dsimp only) (by dsimp only)
    exact ⟨fun claim sat => lawful.satisfies_of_canonical (forward claim) sat value₂,
      fun claim sat => lawful.satisfies_of_canonical (backward claim) sat value₁⟩

/-- The claims of a comparison are true if those of the method are. -/
theorem compare_sound {K : Type} [CommRing K] [LinearOrder K] [IsStrictOrderedRing K]
    {I : Interp K} (lawful : I.Lawful)
    (read₁ : Expr.ofText (settings.expand first) = .ok e₁)
    (read₂ : Expr.ofText (settings.expand second) = .ok e₂)
    (truth₁ : ∃ c, I.value? e₁ = some (.bool c)) (truth₂ : ∃ c, I.value? e₂ = some (.bool c))
    (settled : ∀ p q : Predicate,
      ((settings.settle method p q).value.verdict.ClaimsForward →
        I.Implies p.canonical q.canonical) ∧
      ((settings.settle method p q).value.verdict.ClaimsBackward →
        I.Implies q.canonical p.canonical)) :
    ((settings.compare method first second).ClaimsForward → I.Satisfies e₁ → I.Satisfies e₂) ∧
      ((settings.compare method first second).ClaimsBackward →
        I.Satisfies e₂ → I.Satisfies e₁) := by
  refine compare_sound_at lawful read₁ read₂ truth₁ truth₂ fun p q canonical₁ canonical₂ => ?_
  rw [← canonical₁, ← canonical₂]
  exact settled p q

/-- A rule that settles a direction. -/
theorem proveByRule_value {a b : Expr} (h : (settings.proveByRule a b).value.isSome = true) :
    ∃ r ∈ Rule.all, r.implies a b = true := by
  unfold proveByRule at h
  split at h
  · next r found =>
    have holds := List.find?_some found
    exact ⟨r, List.mem_of_find?_eq_some found, holds⟩
  · cases h

theorem settle_rules {p q : Predicate} :
    (settings.settle .rules p q).value.verdict =
      .ofDirections (settings.proveByRule p.canonical q.canonical).value.isSome
        (settings.proveByRule q.canonical p.canonical).value.isSome := rfl

/-- What the rules claim of two well-sorted predicates holds under every interpretation of their
names by rational numbers and truth values. -/
theorem rules_sound (settings : Settings) (first second : String) {e₁ e₂ : Expr}
    (read₁ : Expr.ofText (settings.expand first) = .ok e₁)
    (read₂ : Expr.ofText (settings.expand second) = .ok e₂) (sorts : Path → ValueSort)
    (sorted₁ : Signature.sort? ⟨sorts, fun _ => true⟩ e₁ = some .boolean)
    (sorted₂ : Signature.sort? ⟨sorts, fun _ => true⟩ e₂ = some .boolean) (I : Interp Rat)
    (resp : I.Respects ⟨sorts, fun _ => true⟩) (exact : I.Exact) :
    ((settings.compare .rules first second).ClaimsForward → I.Satisfies e₁ → I.Satisfies e₂) ∧
      ((settings.compare .rules first second).ClaimsBackward → I.Satisfies e₂ → I.Satisfies e₁) := by
  refine compare_sound exact.toLawful read₁ read₂ (resp.value?_bool sorted₁)
    (resp.value?_bool sorted₂) fun p q => ?_
  rw [settle_rules, Verdict.claimsForward_ofDirections, Verdict.claimsBackward_ofDirections]
  constructor <;> intro proved
  · obtain ⟨r, known, implies⟩ := proveByRule_value proved
    exact Rule.implies_sound exact known implies
  · obtain ⟨r, known, implies⟩ := proveByRule_value proved
    exact Rule.implies_sound exact known implies

/-- Under this interpretation calls are true, other names are zero and what is free is one. -/
def flat : Interp Rat where
  read
    | .call _ _ => .bool true
    | _ => .num 0
  literal? digits := some ((Numeral.value? digits).getD 1)
  arith _ _ _ := 1

/-- Calls are truth values, all other places numbers. -/
def callsBoolean : Path → ValueSort
  | .call _ _ => .boolean
  | _ => .integer

set_option maxRecDepth 4000 in
theorem rules_sound_flat :
    Settings.compare {} .rules "x - y < 1 && f(x)" "x <= y + 1" = .firstStronger ∧
      flat.Satisfies (.op .le [.ident "x", .op .add [.ident "y", .num "1"]]) := by
  have claim : Settings.compare {} .rules "x - y < 1 && f(x)" "x <= y + 1" = .firstStronger := by
    cbv
  have read₁ : Expr.ofText "x - y < 1 && f(x)" =
      .ok (.op .and [.op .lt [.op .sub [.ident "x", .ident "y"], .num "1"],
        .call (.ident "f") [.ident "x"]]) := by
    cbv
  have read₂ : Expr.ofText "x <= y + 1" =
      .ok (.op .le [.ident "x", .op .add [.ident "y", .num "1"]]) := by
    cbv
  have exact : flat.Exact :=
    { zero := by
        rintro digits x value ⟨⟩
        rw [value]
        rfl
      flag := fun _ _ _ _ _ _ => ⟨rfl, rfl⟩
      literal := by
        rintro digits q x value ⟨⟩
        rw [value]
        rfl }
  have resp : flat.Respects ⟨callsBoolean, fun _ => true⟩ :=
    ⟨fun p => by cases p <;> rfl, fun _ => rfl⟩
  have sound := rules_sound {} _ _ read₁ read₂ callsBoolean rfl rfl flat resp exact
  exact ⟨claim, sound.1 (.inl claim) (by cbv)⟩

/-- Refutation fails with an error or settles both directions for the formulas of the trees. -/
theorem settle_refutation (settings : Settings) (solver : Solver) (p q : Predicate) :
    (∃ message, (settings.settle (.refutation solver) p q).value.verdict = .error message) ∨
      ∃ f g, p.canonical.toFormula.result = .ok f ∧ q.canonical.toFormula.result = .ok g ∧
        (settings.settle (.refutation solver) p q).value.verdict =
          .ofDirections (settings.refute solver f g).value.isSome
            (settings.refute solver g f).value.isSome := by
  unfold settle
  dsimp only
  split
  · next f kept g kept' left right =>
    exact .inr ⟨f, g, by rw [left], by rw [right], rfl⟩
  · exact .inl ⟨_, rfl⟩
  · exact .inl ⟨_, rfl⟩

/-- Refutation settles both directions for the formulas of the trees, if there are some. -/
theorem settle_of_formulas (settings : Settings) (solver : Solver) {p q : Predicate}
    {f g : Formula} (hf : p.canonical.toFormula.result = .ok f)
    (hg : q.canonical.toFormula.result = .ok g) :
    ∃ kept, (settings.settle (.refutation solver) p q).value =
      .settled p q (settings.refute solver f g).value (settings.refute solver g f).value kept := by
  unfold settle
  dsimp only
  rcases left : p.canonical.toFormula with ⟨result, kept⟩
  rcases right : q.canonical.toFormula with ⟨result', kept'⟩
  rw [left] at hf
  rw [right] at hg
  cases hf
  cases hg
  exact ⟨kept ++ kept', rfl⟩

/-- The verdict of refutation on two texts that have formulas. -/
theorem compare_refutation (solver : Solver)
    (read₁ : Expr.ofText (settings.expand first) = .ok e₁)
    (read₂ : Expr.ofText (settings.expand second) = .ok e₂) {f g : Formula}
    (converted₁ : e₁.canonical.toFormula.result = .ok f)
    (converted₂ : e₂.canonical.toFormula.result = .ok g) :
    settings.compare (.refutation solver) first second =
      if e₁.canonical = e₂.canonical then .equivalent
      else .ofDirections (settings.refute solver f g).value.isSome
        (settings.refute solver g f).value.isSome := by
  rw [compare_eq read₁ read₂]
  split
  · rfl
  · obtain ⟨kept, eq⟩ := settle_of_formulas settings solver
      (p := ⟨first, settings.expand first, e₁, e₁.canonical⟩)
      (q := ⟨second, settings.expand second, e₂, e₂.canonical⟩) converted₁ converted₂
    rw [eq]
    rfl

theorem and_not_holds {V : Valuation} {f g : Formula} :
    (Formula.and [f, .not g]).Holds V ↔ f.Holds V ∧ ¬g.Holds V := by
  simp [Formula.Holds, Formula.HoldAll]

/-- What is refuted is false: simplification keeps truth and sorts, and the solver is right. -/
theorem refute_sound {settings : Settings} {solver : Solver} {I : Interp Int}
    (sound : solver.SoundAt settings.domain I) (adm : I.valuation.Admissible settings.domain)
    {f g : Formula} (wf : (Formula.and [f, .not g]).WellFormed)
    (ints : (Formula.and [f, .not g]).Integral) (sorted : (Formula.and [f, .not g]).Sorted I)
    (refuted : (settings.refute solver f g).value.isSome = true)
    (holds : f.Holds I.valuation) : g.Holds I.valuation := by
  have refutes : ¬((Formula.and [f, .not g]).simplify settings.domain).Holds I.valuation := by
    unfold refute at refuted
    dsimp only [Logged.value_bind] at refuted
    generalize query : (Formula.and [f, .not g]).simplify settings.domain = simplified at refuted ⊢
    split at refuted
    · next constant =>
      cases simplified <;> simp [Formula.isConst] at constant
      simp [Formula.Holds, constant]
    · split at refuted
      · cases refuted
      · have unsat : (solver.check settings.domain settings.limits simplified).value = .unsat := by
          by_contra other
          simp [other] at refuted
        subst query
        exact sound _ _ (Formula.over_simplify wf) (Formula.over_simplify ints) unsat
          (Formula.leaves_simplify sorted)
  by_contra fails
  rw [Formula.holds_simplify adm ints, and_not_holds] at refutes
  exact refutes ⟨holds, fails⟩

/-- Refuting one direction settles it for formulas that are true or false. -/
theorem true_of_refute {settings : Settings} {solver : Solver} {I : Interp Int}
    (sound : solver.SoundAt settings.domain I) (ref : I.Reference settings.domain)
    {f g : Formula} {c : Bool}
    (truth : Conversion.IsTruth I f true) (truth' : Conversion.IsTruth I g c)
    (refuted : (settings.refute solver f g).value.isSome = true) : c = true := by
  have holds := refute_sound sound ref.admissible ⟨truth.wellFormed, truth'.wellFormed, trivial⟩
    ⟨truth.integral, truth'.integral, trivial⟩ ⟨truth.sorted, truth'.sorted, trivial⟩ refuted
    (truth.holds.2 rfl)
  exact truth'.holds.1 holds

/-- What refutation claims of two trees with truth values holds, if what it refutes does. -/
theorem refutation_claims_of {K : Type} [CommRing K] [LinearOrder K] [IsStrictOrderedRing K]
    {I : Interp K} (lawful : I.Lawful) {solver : Solver}
    (read₁ : Expr.ofText (settings.expand first) = .ok e₁)
    (read₂ : Expr.ofText (settings.expand second) = .ok e₂)
    (truth₁ : ∃ c, I.value? e₁ = some (.bool c)) (truth₂ : ∃ c, I.value? e₂ = some (.bool c))
    (implies : ∀ f g, e₁.canonical.toFormula.result = .ok f →
      e₂.canonical.toFormula.result = .ok g →
      ((settings.refute solver f g).value.isSome = true → I.Implies e₁.canonical e₂.canonical) ∧
        ((settings.refute solver g f).value.isSome = true →
          I.Implies e₂.canonical e₁.canonical)) :
    ((settings.compare (.refutation solver) first second).ClaimsForward →
        I.Satisfies e₁ → I.Satisfies e₂) ∧
      ((settings.compare (.refutation solver) first second).ClaimsBackward →
        I.Satisfies e₂ → I.Satisfies e₁) := by
  refine compare_sound_at lawful read₁ read₂ truth₁ truth₂ fun p q canonical₁ canonical₂ => ?_
  rcases settle_refutation settings solver p q with ⟨message, error⟩ | ⟨f, g, hf, hg, eq⟩
  · rw [error]
    constructor <;> rintro (claim | claim) <;> cases claim
  · rw [canonical₁] at hf
    rw [canonical₂] at hg
    rw [eq, Verdict.claimsForward_ofDirections, Verdict.claimsBackward_ofDirections]
    exact implies f g hf hg

/-- Refuting one direction settles it for the canonical trees. -/
theorem implies_of_refute {settings : Settings} {solver : Solver} {I : Interp Int}
    (sound : solver.SoundAt settings.domain I) (ref : I.Reference settings.domain)
    {a b : Expr} {f g : Formula}
    (hf : a.toFormula.result = .ok f) (hg : b.toFormula.result = .ok g)
    (refuted : (settings.refute solver f g).value.isSome = true) : I.Implies a b := by
  intro sat c value
  exact true_of_refute sound ref (Conversion.formula_sound ref.arithmetical sat hf)
    (Conversion.formula_sound ref.arithmetical value hg) refuted

/-- What refutation claims of two trees with truth values holds, if the solver is sound there. -/
theorem refutation_claims {solver : Solver} {I : Interp Int}
    (sound : solver.SoundAt settings.domain I) (ref : I.Reference settings.domain)
    (read₁ : Expr.ofText (settings.expand first) = .ok e₁)
    (read₂ : Expr.ofText (settings.expand second) = .ok e₂)
    (truth₁ : ∃ c, I.value? e₁ = some (.bool c)) (truth₂ : ∃ c, I.value? e₂ = some (.bool c)) :
    ((settings.compare (.refutation solver) first second).ClaimsForward →
        I.Satisfies e₁ → I.Satisfies e₂) ∧
      ((settings.compare (.refutation solver) first second).ClaimsBackward →
        I.Satisfies e₂ → I.Satisfies e₁) :=
  refutation_claims_of ref.toLawful read₁ read₂ truth₁ truth₂ fun _ _ hf hg =>
    ⟨implies_of_refute sound ref hf hg, implies_of_refute sound ref hg hf⟩

/-- What refutation claims of two well-sorted predicates holds under every interpretation of their
names by truth values and integers of the domain. The limits and the solver do not matter, as long
as the solver is sound under such interpretations; the elimination is. -/
theorem refutation_sound : Solver.elimination.Sound ∧
    ∀ (settings : Settings) (solver : Solver), solver.Sound → ∀ (first second : String)
      (e₁ e₂ : Expr), Expr.ofText (settings.expand first) = .ok e₁ →
      Expr.ofText (settings.expand second) = .ok e₂ → ∀ σ : Signature,
      σ.sort? e₁ = some .boolean → σ.sort? e₂ = some .boolean → ∀ I : Interp Int, I.Respects σ →
      I.Reference settings.domain →
      ((settings.compare (.refutation solver) first second).ClaimsForward →
        I.Satisfies e₁ → I.Satisfies e₂) ∧
      ((settings.compare (.refutation solver) first second).ClaimsBackward →
        I.Satisfies e₂ → I.Satisfies e₁) := by
  refine ⟨Solver.elimination_sound, ?_⟩
  intro settings solver sound first second e₁ e₂ read₁ read₂ σ sorted₁ sorted₂ I resp ref
  exact refutation_claims (sound settings.domain σ I resp ref) ref read₁ read₂
    (resp.value?_bool sorted₁) (resp.value?_bool sorted₂)

theorem respects_uniform (x : Int) : (Interp.uniform x).Respects
    ⟨callsBoolean, fun digits => ((Interp.uniform x).literal? digits).isSome⟩ := by
  refine ⟨fun p => ?_, fun _ => rfl⟩
  cases p with
  | call f args =>
    cases args with
    | nil => rfl
    | cons v vs => cases vs <;> cases v <;> rfl
  | _ => rfl

set_option maxRecDepth 4000 in
theorem refutation_sound_uniform :
    Settings.compare {} (.refutation .elimination) "2 * x > 5" "x >= 3" = .equivalent ∧
      (Interp.uniform 7).Satisfies (.op .ge [.ident "x", .num "3"]) := by
  have claim : Settings.compare {} (.refutation .elimination) "2 * x > 5" "x >= 3" =
      .equivalent := by
    cbv
  have read₁ : Expr.ofText "2 * x > 5" =
      .ok (.op .gt [.op .mul [.num "2", .ident "x"], .num "5"]) := by
    cbv
  have read₂ : Expr.ofText "x >= 3" = .ok (.op .ge [.ident "x", .num "3"]) := by
    cbv
  have sound := refutation_sound.2 {} .elimination refutation_sound.1 _ _ _ _ read₁ read₂ _
    (by cbv) (by cbv) (.uniform 7) (respects_uniform 7)
    (Interp.reference_uniform (by decide) .unsigned)
  exact ⟨claim, sound.1 (.inr claim) (by cbv)⟩

end Settings
end PredicateStrength
