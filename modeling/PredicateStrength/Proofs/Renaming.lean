import Mathlib
import PredicateStrength.Proofs.Comparison
import PredicateStrength.Proofs.Expr.Ranking
import PredicateStrength.Proofs.Expr.RenamedText
import PredicateStrength.Proofs.Formula.RenamedMeaning
import PredicateStrength.Proofs.Formula.Renaming
import PredicateStrength.Proofs.Interruption
import PredicateStrength.Proofs.RuleRenaming
import PredicateStrength.Proofs.Solver.Renaming

/-!
# Verdicts and names

New names in the order of the old ones change no verdict. Other new names can: operands, columns
and eliminations follow the order of the names, and the tightening of rows makes the outcome of an
elimination depend on that order. But what is claimed of the renamed predicates then holds of the
predicates too, and the other way around.

Main statement: `Settings.compare_renamed`.
-/
namespace PredicateStrength

variable {R : Renaming} {V : Vocabulary}

theorem Renaming.KeepsOrder.injective (mono : R.Monotone) : R.Injective where
  name x y same := by
    rw [← compare_eq_iff_eq, ← mono.name x trivial y trivial, same]
    exact compare_eq_iff_eq.2 rfl
  field f g same := by
    rw [← compare_eq_iff_eq, ← mono.field f trivial g trivial, same]
    exact compare_eq_iff_eq.2 rfl

namespace Settings

variable {settings : Settings} {method : Method} {p q p' q' : Predicate}

theorem proveByRule_rename (inj : R.Injective) (a b : Expr) :
    (settings.proveByRule (a.rename R) (b.rename R)).value.isSome =
      (settings.proveByRule a b).value.isSome := by
  have same : Rule.all.find? (fun r => r.implies (a.rename R) (b.rename R)) =
      Rule.all.find? fun r => r.implies a b :=
    List.find?_congr fun r known => Rule.implies_rename inj known a b
  unfold proveByRule
  rw [same]
  cases Rule.all.find? fun r => r.implies a b <;> rfl

theorem refute_rename (mono : R.Monotone) (f g : Formula) :
    (settings.refute .elimination (f.map (R.embedding mono)) (g.map (R.embedding mono))).value =
      (settings.refute .elimination f g).value := by
  have query : Formula.and [f.map (R.embedding mono), .not (g.map (R.embedding mono))] =
      (Formula.and [f, .not g]).map (R.embedding mono) := rfl
  unfold refute
  dsimp only [Logged.value_bind]
  rw [query, Formula.simplify_map, Formula.isConst_map, Formula.isConst_map]
  split
  · rfl
  · split
    · rfl
    · dsimp only [Logged.value_bind]
      rw [Solver.check_rename]

/-- Refutation fails where one of the trees has no formula. -/
theorem settle_failed {solver : Solver} (none : ∀ f g, p.canonical.toFormula.result = .ok f →
    q.canonical.toFormula.result ≠ .ok g) :
    (settings.settle (.refutation solver) p q).value.verdict.tag = "error" := by
  rcases settle_refutation settings solver p q with ⟨_, error⟩ | ⟨f, g, hf, hg, _⟩
  · rw [error]
    rfl
  · exact absurd hg (none f g hf)

/-- Settling renamed trees comes to the same. -/
theorem settle_rename (settings : Settings) (mono : R.Monotone)
    (plain : method = .rules ∨ method = .refutation .elimination) (p q p' q' : Predicate)
    (first : p'.canonical = p.canonical.rename R) (second : q'.canonical = q.canonical.rename R) :
    (settings.settle method p' q').value.verdict.tag =
      (settings.settle method p q).value.verdict.tag := by
  rcases plain with rfl | rfl
  · rw [settle_rules, settle_rules, first, second, proveByRule_rename mono.injective,
      proveByRule_rename mono.injective]
  · have left := Conversion.formula_rename mono p.canonical
    have right := Conversion.formula_rename mono q.canonical
    rw [← first] at left
    rw [← second] at right
    cases left with
    | error left left' =>
      rw [settle_failed fun f g hf => ?_, settle_failed fun f g hf => ?_]
      · cases left.symm.trans hf
      · cases left'.symm.trans hf
    | ok left left' =>
      cases right with
      | error right right' =>
        rw [settle_failed fun f g _ hg => ?_, settle_failed fun f g _ hg => ?_]
        · cases right.symm.trans hg
        · cases right'.symm.trans hg
      | ok right right' =>
        obtain ⟨kept, settled⟩ := settle_of_formulas settings .elimination left right
        obtain ⟨kept', settled'⟩ := settle_of_formulas settings .elimination left' right'
        rw [settled, settled', refute_rename, refute_rename]
        rfl

/-- A text that cannot be read makes the verdict an error. -/
theorem compare_unread {first second : String} {e : PredicateError}
    (error : Expr.ofText (settings.expand first) = .error e ∨
      Expr.ofText (settings.expand second) = .error e) :
    (settings.compare method first second).tag = "error" := by
  have unread {source : String} (h : Expr.ofText (settings.expand source) = .error e) :
      (settings.read source).value = .error e := by
    simp [read, Predicate.read, h, bind, Except.bind]
  rw [compare, explain, Logged.value_bind]
  rcases error with error | error
  · rw [unread error]
    rfl
  · cases (settings.read first).value with
    | error e' => rfl
    | ok p =>
      dsimp only
      rw [Logged.value_bind, unread error]
      rfl

/-- New names in the order of the old ones change no verdict. -/
theorem compare_tag_renamed (inj : R.Injective) (idioms : R.KeepsIdioms) (closed : V.Closed)
    (keeps : R.KeepsOrder V) (plain : method = .rules ∨ method = .refutation .elimination)
    {first second first' second' : String} {e₁ e₂ : Expr}
    (read₁ : Expr.ofText (settings.expand first) = .ok e₁)
    (read₂ : Expr.ofText (settings.expand second) = .ok e₂)
    (read₁' : Expr.ofText (settings.expand first') = .ok (e₁.rename R))
    (read₂' : Expr.ofText (settings.expand second') = .ok (e₂.rename R))
    (known₁ : e₁.Within V) (known₂ : e₂.Within V) :
    (settings.compare method first' second').tag = (settings.compare method first second).tag := by
  obtain ⟨canonical₁, within₁⟩ := Expr.canonical_rename inj idioms closed keeps known₁
  obtain ⟨canonical₂, within₂⟩ := Expr.canonical_rename inj idioms closed keeps known₂
  rw [compare_eq read₁' read₂', compare_eq read₁ read₂, canonical₁, canonical₂]
  simp only [Expr.rename_inj_of_within keeps within₁ within₂]
  split
  · rfl
  · obtain ⟨Q, S, mono, mono', common₁, common₂⟩ :=
      Renaming.exists_common keeps within₁ within₂
    let read (source : String) (e canonical : Expr) : Predicate :=
      ⟨source, settings.expand source, e, canonical⟩
    let common (e : Expr) : Predicate := read "" e (e.canonical.rename Q)
    have here := settle_rename settings mono plain (read first e₁ e₁.canonical)
      (read second e₂ e₂.canonical) (common e₁) (common e₂) rfl rfl
    have there := settle_rename settings mono' plain
      (read first' (e₁.rename R) (e₁.canonical.rename R))
      (read second' (e₂.rename R) (e₂.canonical.rename R)) (common e₁) (common e₂)
      common₁.symm common₂.symm
    exact there.symm.trans here

/-- What the verdict claims of the two trees holds under `I`. -/
def Confirms (I : Interp Int) (v : Verdict) (a b : Expr) : Prop :=
  (v.ClaimsForward → I.Satisfies a → I.Satisfies b) ∧
    (v.ClaimsBackward → I.Satisfies b → I.Satisfies a)

/-- Under an interpretation that gives the new names the meaning of the old ones, the verdict claims
of the renamed trees what it claims of the trees. -/
theorem confirms_rename {I J : Interp Int} (h : I.Transports R J) (inj : R.Injective)
    (idioms : R.KeepsIdioms) {v : Verdict} {a b : Expr} :
    Confirms J v (a.rename R) (b.rename R) ↔ Confirms I v a b := by
  simp only [Confirms, Interp.Satisfies, h.value? inj idioms]

/-- For two predicates and the same predicates in other names: new names in the order of the old
ones change no verdict, as long as the order is kept for the names that occur and for those that
idioms bring in. Whatever the order of the new names, what is claimed of one pair holds of the
other. -/
theorem compare_renamed (settings : Settings) (inj : R.Injective) (idioms : R.KeepsIdioms)
    {first second first' second' : String}
    (renamed₁ : R.Texts (settings.expand first) (settings.expand first'))
    (renamed₂ : R.Texts (settings.expand second) (settings.expand second')) :
    (∀ method : Method, method = .rules ∨ method = .refutation .elimination →
      ∀ V : Vocabulary, V.Closed → R.KeepsOrder V →
      (∀ e, Expr.ofText (settings.expand first) = .ok e ∨
        Expr.ofText (settings.expand second) = .ok e → e.Within V) →
      (settings.compare method first' second').tag = (settings.compare method first second).tag) ∧
    ∀ e₁ e₂ : Expr, Expr.ofText (settings.expand first) = .ok e₁ →
      Expr.ofText (settings.expand second) = .ok e₂ →
      (∀ I : Interp Int, I.Reference settings.domain → (∃ c, I.value? e₁ = some (.bool c)) →
        (∃ c, I.value? e₂ = some (.bool c)) →
        Confirms I (settings.compare (.refutation .elimination) first' second') e₁ e₂) ∧
      ∀ J : Interp Int, J.Reference settings.domain →
        (∃ c, J.value? (e₁.rename R) = some (.bool c)) →
        (∃ c, J.value? (e₂.rename R) = some (.bool c)) →
        Confirms J (settings.compare (.refutation .elimination) first second)
          (e₁.rename R) (e₂.rename R) := by
  refine ⟨fun method plain V closed keeps known => ?_, fun e₁ e₂ read₁ read₂ => ?_⟩
  · rcases Expr.ofText_renamed inj renamed₁ with ⟨e₁, read₁, read₁'⟩ | ⟨_, _, error, error'⟩
    · rcases Expr.ofText_renamed inj renamed₂ with ⟨e₂, read₂, read₂'⟩ | ⟨_, _, error, error'⟩
      · exact compare_tag_renamed inj idioms closed keeps plain read₁ read₂ read₁' read₂'
          (known e₁ (.inl read₁)) (known e₂ (.inr read₂))
      · rw [compare_unread (.inr error), compare_unread (.inr error')]
    · rw [compare_unread (.inl error), compare_unread (.inl error')]
  · have read₁' := Expr.ofText_renamed_ok inj renamed₁ read₁
    have read₂' := Expr.ofText_renamed_ok inj renamed₂ read₂
    refine ⟨fun I ref truth₁ truth₂ => ?_, fun J ref truth₁ truth₂ => ?_⟩
    · obtain ⟨J, transports, ref'⟩ := Interp.exists_transports inj idioms ref
      rw [← transports.value? inj idioms] at truth₁ truth₂
      exact (confirms_rename transports inj idioms).1
        (refutation_claims (Solver.elimination_soundAt ref') ref' read₁' read₂' truth₁ truth₂)
    · obtain ⟨I, transports, ref'⟩ := Interp.exists_transports_to idioms ref
      rw [transports.value? inj idioms] at truth₁ truth₂
      exact (confirms_rename transports inj idioms).2
        (refutation_claims (Solver.elimination_soundAt ref') ref' read₁ read₂ truth₁ truth₂)

set_option maxRecDepth 4000 in
theorem compare_renamed_bounds :
    (Settings.compare {} (.refutation .elimination) "x < z + 1" "x <= z").tag = "equivalent" ∧
      (Interp.uniform 7).Satisfies (.op .le [.ident "x", .ident "z"]) := by
  have claim : Settings.compare {} (.refutation .elimination) "x < y + 1" "x <= y" =
      .equivalent := by cbv
  have read₁ : Expr.ofText "x < y + 1" =
      .ok (.op .lt [.ident "x", .op .add [.ident "y", .num "1"]]) := by cbv
  have read₂ : Expr.ofText "x <= y" = .ok (.op .le [.ident "x", .ident "y"]) := by cbv
  have texts₁ : (Renaming.exchange "y" "z").Texts "x < y + 1" "x < z + 1" :=
    .words (by cbv) (by cbv) (Renaming.Words.of_forall₂ (by decide))
  have texts₂ : (Renaming.exchange "y" "z").Texts "x <= y" "x <= z" :=
    .words (by cbv) (by cbv) (Renaming.Words.of_forall₂ (by decide))
  let V : Vocabulary := ⟨{"x", "y"}, ∅⟩
  have closed : V.Closed := Renaming.closed_of_foreign (by simp [V, Renaming.idiomNames])
  have keeps : (Renaming.exchange "y" "z").KeepsOrder V := by
    refine ⟨?_, fun _ mem => False.elim mem⟩
    rintro _ (rfl | rfl) _ (rfl | rfl) <;> decide
  have known : ∀ e, Expr.ofText "x < y + 1" = .ok e ∨ Expr.ofText "x <= y" = .ok e →
      e.Within V := by
    rintro e (read | read)
    · cases read₁.symm.trans read
      simp [V]
    · cases read₂.symm.trans read
      simp [V]
  obtain ⟨same, claims⟩ := compare_renamed {} (Renaming.exchange_injective "y" "z")
    (Renaming.keepsIdioms_of_fixed (by decide)) texts₁ texts₂
  have tag := (same (.refutation .elimination) (.inr rfl) V closed keeps known).trans
    (congrArg Verdict.tag claim)
  have ref : (Interp.uniform 7).Reference (Settings.domain {}) :=
    Interp.reference_uniform (by decide) _
  have confirmed := (claims _ _ read₁ read₂).2 (.uniform 7) ref ⟨true, by cbv⟩ ⟨true, by cbv⟩
  exact ⟨tag, confirmed.1 (.inr claim) (by cbv)⟩

/-- Simplification leaves open whether `f` implies `g`, and the elimination answers within the limits
that stand by default. -/
structure LeftOpen (f g query : Formula) (answer : Solver.Answer) : Prop where
  simplified : (Formula.and [f, .not g]).simplify .unsigned = query
  undecided : ∀ b, query.isConst b = false
  answered : (Solver.elimination.check .unsigned {} query).value = answer
  known : answer ≠ .unknown

variable {l : Solver.Limits}

/-- The answer decides the direction, under all wider limits too. -/
theorem LeftOpen.refute {f g query : Formula} {answer : Solver.Answer}
    (h : LeftOpen f g query answer) (wider : ({} : Solver.Limits).Within l) :
    (Settings.refute { limits := l } .elimination f g).value.isSome = decide (answer = .unsat) := by
  have answered : (Solver.elimination.check .unsigned l query).value = answer := by
    rw [Solver.elimination_check_eq wider (h.answered ▸ h.known), h.answered]
  unfold Settings.refute
  dsimp only [Logged.value_bind]
  rw [h.simplified, h.undecided, h.undecided]
  simp only [Bool.false_eq_true, if_false, Logged.value_bind, answered]
  cases answer <;> rfl

/-- The answers make the verdict. -/
theorem compare_of_answers (wider : ({} : Solver.Limits).Within l) {first second : String}
    {e₁ e₂ : Expr} {f g query query' : Formula} {answer answer' : Solver.Answer}
    (read₁ : Expr.ofText first = .ok e₁) (read₂ : Expr.ofText second = .ok e₂)
    (formula₁ : e₁.canonical.toFormula.result = .ok f)
    (formula₂ : e₂.canonical.toFormula.result = .ok g) (differ : f ≠ g)
    (forward : LeftOpen f g query answer) (backward : LeftOpen g f query' answer') :
    Settings.compare { limits := l } (.refutation .elimination) first second =
      .ofDirections (answer = .unsat) (answer' = .unsat) := by
  have trees : e₁.canonical ≠ e₂.canonical := by
    intro same
    rw [same, formula₂] at formula₁
    exact differ (Except.ok.inj formula₁).symm
  have verdict : Settings.compare { limits := l } (.refutation .elimination) first second =
      if e₁.canonical = e₂.canonical then .equivalent
      else .ofDirections (Settings.refute { limits := l } .elimination f g).value.isSome
        (Settings.refute { limits := l } .elimination g f).value.isSome :=
    compare_refutation .elimination read₁ read₂ formula₁ formula₂
  rw [verdict, if_neg trees, forward.refute wider, backward.refute wider]

/-- `a * x + b * y` within a bound. -/
def weighted (a b : Rat) (bound : Bound) : Formula :=
  .constraint ⟨⟨[⟨.ofAtom (.symbol "x"), a⟩, ⟨.ofAtom (.symbol "y"), b⟩]⟩, bound⟩

theorem leftOpen_ordered :
    LeftOpen (weighted 3 2 (.range none (some 1))) (weighted 1 (-2) (.range (some 0) none))
      (.and [weighted 1 (-2) (.range none (some (-1))), weighted 3 2 (.range none (some 1))])
      .unsat where
  simplified := by cbv
  undecided _ := rfl
  answered := by cbv
  known := by decide

theorem leftOpen_ordered' :
    LeftOpen (weighted 1 (-2) (.range (some 0) none)) (weighted 3 2 (.range none (some 1)))
      (.and [weighted 1 (-2) (.range (some 0) none), weighted 3 2 (.range (some 2) none)])
      .sat where
  simplified := by cbv
  undecided _ := rfl
  answered := by cbv
  known := by decide

theorem leftOpen_exchanged :
    LeftOpen (weighted 2 3 (.range none (some 1))) (weighted 2 (-1) (.range none (some 0)))
      (.and [weighted 2 (-1) (.range (some 1) none), weighted 2 3 (.range none (some 1))])
      .sat where
  simplified := by cbv
  undecided _ := rfl
  answered := by cbv
  known := by decide

theorem leftOpen_exchanged' :
    LeftOpen (weighted 2 (-1) (.range none (some 0))) (weighted 2 3 (.range none (some 1)))
      (.and [weighted 2 (-1) (.range none (some 0)), weighted 2 3 (.range (some 2) none)])
      .sat where
  simplified := by cbv
  undecided _ := rfl
  answered := by cbv
  known := by decide

/-- The tree of `m * x + n * y <= 1`. -/
def sumAtMostOne (m x n y : String) : Expr :=
  .op .le [.op .add [.op .mul [.num m, .ident x], .op .mul [.num n, .ident y]], .num "1"]

/-- The tree of `2 * x < y + 1`. -/
def doubleBelow (x y : String) : Expr :=
  .op .lt [.op .mul [.num "2", .ident x], .op .add [.ident y, .num "1"]]

set_option maxRecDepth 4000 in
theorem formula_sumAtMostOne :
    (sumAtMostOne "3" "x" "2" "y").canonical.toFormula.result =
        .ok (weighted 3 2 (.range none (some 1))) ∧
      (sumAtMostOne "3" "y" "2" "x").canonical.toFormula.result =
        .ok (weighted 2 3 (.range none (some 1))) :=
  ⟨by cbv, by cbv⟩

set_option maxRecDepth 4000 in
theorem formula_doubleBelow :
    (doubleBelow "y" "x").canonical.toFormula.result =
        .ok (weighted 1 (-2) (.range (some 0) none)) ∧
      (doubleBelow "x" "y").canonical.toFormula.result =
        .ok (weighted 2 (-1) (.range none (some 0))) :=
  ⟨by cbv, by cbv⟩

set_option maxRecDepth 4000 in
/-- Another order of the names, another verdict, however wide the limits are: the tightening of rows
finds the refutation in one order of the columns only. -/
theorem compare_renamed_ne :
    (Renaming.exchange "x" "y").Injective ∧ (Renaming.exchange "x" "y").KeepsIdioms ∧
    (Renaming.exchange "x" "y").Texts "3 * x + 2 * y <= 1" "3 * y + 2 * x <= 1" ∧
    (Renaming.exchange "x" "y").Texts "2 * y < x + 1" "2 * x < y + 1" ∧
    ∀ l : Solver.Limits, ({} : Solver.Limits).Within l →
      Settings.compare { limits := l } (.refutation .elimination)
        "3 * x + 2 * y <= 1" "2 * y < x + 1" = .firstStronger ∧
      Settings.compare { limits := l } (.refutation .elimination)
        "3 * y + 2 * x <= 1" "2 * x < y + 1" = .incomparable := by
  have read₁ : Expr.ofText "3 * x + 2 * y <= 1" = .ok (sumAtMostOne "3" "x" "2" "y") := by cbv
  have read₂ : Expr.ofText "2 * y < x + 1" = .ok (doubleBelow "y" "x") := by cbv
  have read₁' : Expr.ofText "3 * y + 2 * x <= 1" = .ok (sumAtMostOne "3" "y" "2" "x") := by cbv
  have read₂' : Expr.ofText "2 * x < y + 1" = .ok (doubleBelow "x" "y") := by cbv
  refine ⟨Renaming.exchange_injective _ _, Renaming.keepsIdioms_of_fixed (by decide),
    .words (by cbv) (by cbv) (.of_forall₂ (by decide)),
    .words (by cbv) (by cbv) (.of_forall₂ (by decide)), fun l wider => ⟨?_, ?_⟩⟩
  · exact compare_of_answers wider read₁ read₂ formula_sumAtMostOne.1 formula_doubleBelow.1
      (by simp [weighted]) leftOpen_ordered leftOpen_ordered'
  · exact compare_of_answers wider read₁' read₂' formula_sumAtMostOne.2 formula_doubleBelow.2
      (by simp [weighted]) leftOpen_exchanged leftOpen_exchanged'

end Settings
end PredicateStrength
