import Mathlib
import PredicateStrength.Proofs.Loose

/-!
# Limits and interruptions only blur

A search that comes to an answer has asked for branches, rows and permission to go on as often as
it needed them. Under limits that grant at least as much it asks the same questions in the same
order, gets the same replies, and comes to the same answer with the same records. So a reply that
was refused can turn an answer into "unknown", but never one answer into the other.

Main statements: `Budgeted.steady_satisfiable` (the whole search takes the same course),
`elimination_check_eq` and, for comparisons, `Settings.limits_only_blur`.
-/
namespace PredicateStrength

namespace Solver

/-- The second limits grant whatever the first ones do. -/
structure Limits.Within (l l' : Limits) : Prop where
  maxBranches : l.maxBranches ≤ l'.maxBranches
  maxRows : l.maxRows ≤ l'.maxRows
  alive : ∀ i, l.alive i = true → l'.alive i = true

/-- The same limits where every request to go on is granted. -/
def Limits.uninterrupted (l : Limits) : Limits := { l with alive := fun _ => true }

theorem Limits.within_uninterrupted (l : Limits) : l.Within l.uninterrupted :=
  ⟨le_refl _, le_refl _, fun _ _ => rfl⟩

namespace Budgeted

variable {α β : Type}

/-- A run with a value is the same run under wider limits. -/
def Steady (c : Budgeted α) : Prop :=
  ∀ l l' : Limits, l.Within l' → ∀ (s s' : Progress) (a : α),
    c l s = (some a, s') → c l' s = (some a, s')

theorem steady_pure (a : α) : (pure a : Budgeted α).Steady := fun _ _ _ _ _ _ run => run

theorem Steady.bind {c : Budgeted α} {f : α → Budgeted β} (first : c.Steady)
    (next : ∀ a, (f a).Steady) : (c >>= f).Steady := by
  intro l l' wider s s' b run
  rw [run_bind] at run ⊢
  rcases outcome : c l s with ⟨_ | a, s₁⟩
  · rw [outcome] at run
    cases run
  · rw [outcome] at run
    rw [first l l' wider s s₁ a outcome]
    exact next a l l' wider s₁ s' b run

theorem steady_requireAlive : requireAlive.Steady := by
  intro l l' wider s s' _ run
  unfold requireAlive at run ⊢
  by_cases granted : l.alive s.requests = true
  · rw [if_pos granted] at run
    rw [if_pos (wider.alive _ granted)]
    exact run
  · rw [if_neg granted] at run
    cases run

theorem steady_startBranch : startBranch.Steady := by
  intro l l' wider s s' _ run
  unfold startBranch at run ⊢
  dsimp only at run ⊢
  by_cases exceeded : l.maxBranches < s.branches + 1
  · rw [if_pos exceeded] at run
    cases run
  · rw [if_neg exceeded] at run
    have room := wider.maxBranches
    rw [if_neg (by omega)]
    exact steady_requireAlive l l' wider _ _ _ run

theorem Steady.orElse {c e : Budgeted Bool} (first : c.Steady) (second : e.Steady) :
    (c.orElse e).Steady :=
  first.bind fun yes => by cases yes <;> first | exact second | exact steady_pure true

end Budgeted

open Budgeted

variable {d : Domain}

theorem foldlM_of_imp {α β : Type} {f g : β → α → Option β}
    (imp : ∀ b x c, f b x = some c → g b x = some c) {xs : List α} {b c : β}
    (run : xs.foldlM f b = some c) : xs.foldlM g b = some c := by
  induction xs generalizing b with
  | nil => exact run
  | cons x xs ih =>
    rw [List.foldlM_cons] at run ⊢
    obtain ⟨b', step, rest⟩ := Option.bind_eq_some_iff.1 run
    exact Option.bind_eq_some_iff.2 ⟨b', imp b x b' step, ih rest⟩

theorem resolveAll_of_le {maxRows maxRows' col : Nat} {rows next : List Row}
    (room : maxRows ≤ maxRows') (run : resolveAll maxRows col rows = some next) :
    resolveAll maxRows' col rows = some next := by
  refine foldlM_of_imp (fun b u c step => foldlM_of_imp (fun b r c step => ?_) step) run
  dsimp only at step ⊢
  split at step
  · cases step
  · next fits => rw [if_neg (by omega), step]

theorem steady_eliminate (rows : List Row) : (eliminate rows).Steady := by
  intro l l' wider s s' a run
  fun_induction eliminate rows l s with
  | case1 | case4 | case5 => cases run
  | case2 rows s s₁ alive contradiction =>
    rw [eliminate, steady_requireAlive l l' wider _ _ _ alive]
    dsimp only
    rw [if_pos contradiction]
    exact run
  | case3 rows s s₁ alive consistent none =>
    rw [eliminate, steady_requireAlive l l' wider _ _ _ alive]
    dsimp only
    rw [if_neg consistent]
    split
    · exact run
    · next found => cases none.symm.trans found
  | case6 rows s s₁ alive consistent col found next resolved s₂ reported ih =>
    have resolved' := resolveAll_of_le wider.maxRows resolved
    rw [eliminate, steady_requireAlive l l' wider _ _ _ alive]
    dsimp only
    rw [if_neg consistent]
    split
    · next none => cases found.symm.trans none
    · next col' found' =>
      cases found.symm.trans found'
      split
      · next none => cases resolved'.symm.trans none
      · next next' again =>
        cases resolved'.symm.trans again
        cases reported
        exact ih run

theorem steady_ifFeasible (cs : List Constraint) {next : Budgeted Bool} (steady : next.Steady) :
    (ifFeasible d cs next).Steady :=
  (steady_eliminate _).bind fun feasible => by
    cases feasible <;> first | exact steady | exact steady_pure false

theorem steady_splitDisequalities (done cs : List Constraint) :
    (splitDisequalities d done cs).Steady := by
  induction cs generalizing done with
  | nil => exact steady_pure true
  | cons c cs ih =>
    obtain ⟨p, bound⟩ := c
    rw [splitDisequalities]
    cases bound with
    | range lo hi => exact ih _
    | ne v =>
      have side (b : Bound) := steady_startBranch.bind fun _ =>
        steady_ifFeasible (d := d) (done ++ ⟨p, b⟩ :: cs) (ih (done ++ [⟨p, b⟩]))
      exact (side _).orElse (side _)

theorem steady_decideCube (cube : Cube) : (decideCube d cube).Steady :=
  steady_ifFeasible _ (steady_splitDisequalities _ _)

mutual
theorem steady_search {next : Cube → Budgeted Bool} (steady : ∀ cube, (next cube).Steady) :
    ∀ (f : Nnf) (cube : Cube), (search next cube f).Steady
  | .const b, cube => by
    rw [search]
    cases b
    · exact steady_pure false
    · exact steady cube
  | .literal a value, cube => by
    rw [search]
    split
    · exact steady _
    · exact steady_pure false
  | .constraint c, cube => by
    rw [search]
    exact steady _
  | .all fs, cube => by
    rw [search]
    exact steady_searchAll steady fs cube
  | .any fs, cube => by
    rw [search]
    exact steady_searchAny steady fs cube

theorem steady_searchAll {next : Cube → Budgeted Bool} (steady : ∀ cube, (next cube).Steady) :
    ∀ (fs : List Nnf) (cube : Cube), (searchAll next cube fs).Steady
  | [], cube => by
    rw [searchAll]
    exact steady cube
  | f :: fs, cube => by
    rw [searchAll]
    exact steady_searchAll (fun cube => steady_search steady f cube) fs cube

theorem steady_searchAny {next : Cube → Budgeted Bool} (steady : ∀ cube, (next cube).Steady) :
    ∀ (fs : List Nnf) (cube : Cube), (searchAny next cube fs).Steady
  | [], cube => by
    rw [searchAny]
    exact steady_pure false
  | f :: fs, cube => by
    rw [searchAny]
    exact (steady_startBranch.bind fun _ => steady_search steady f cube).orElse
      (steady_searchAny steady fs cube)
end

/-- The search for a satisfying case takes the same course under wider limits. -/
theorem steady_satisfiable (f : Formula) : (satisfiable d f).Steady :=
  steady_search steady_decideCube _ _

/-- An answer stays the answer under wider limits, and its records stay the records. -/
theorem elimination_check_eq {l l' : Limits} (wider : l.Within l') {f : Formula}
    (answered : (elimination.check d l f).value ≠ .unknown) :
    elimination.check d l' f = elimination.check d l f := by
  show solve d l' f = solve d l f
  replace answered : Answer.ofOutcome (satisfiable d f l {}).1 ≠ .unknown := answered
  rcases outcome : satisfiable d f l {} with ⟨_ | yes, s⟩
  · rw [outcome] at answered
    exact absurd rfl answered
  · rw [solve, solve, outcome, steady_satisfiable f l l' wider _ _ _ outcome]

/-- The elimination with limits of its own for each formula. -/
def limited (limits : Formula → Limits) : Solver :=
  ⟨elimination.name, fun d _ f => elimination.check d (limits f) f⟩

end Solver

namespace Settings

variable {settings : Settings} {l l' : Solver.Limits} {solver solver' : Solver}

/-- The settings with other limits. -/
def under (settings : Settings) (l : Solver.Limits) : Settings := { settings with limits := l }

/-- Limits and solver come in only where formulas are to be refuted. -/
theorem compare_cases (settings : Settings) (first second : String) :
    (∃ v, ∀ l solver, (settings.under l).compare (.refutation solver) first second = v) ∨
    ∃ f g, ∀ l solver, (settings.under l).compare (.refutation solver) first second =
      .ofDirections ((settings.under l).refute solver f g).value.isSome
        ((settings.under l).refute solver g f).value.isSome := by
  have reading (l : Solver.Limits) (text : String) :
      ((settings.under l).read text).value = Predicate.read settings.expand text := rfl
  simp only [compare, explain, Logged.value_bind, reading]
  cases Predicate.read settings.expand first with
  | error e => exact .inl ⟨_, fun _ _ => rfl⟩
  | ok p =>
    dsimp only
    simp only [Logged.value_bind, reading]
    cases Predicate.read settings.expand second with
    | error e => exact .inl ⟨_, fun _ _ => rfl⟩
    | ok q =>
      dsimp only
      by_cases same : p.canonical = q.canonical
      · simp only [if_pos same]
        exact .inl ⟨_, fun _ _ => rfl⟩
      · simp only [if_neg same]
        unfold settle
        dsimp only
        split
        · next f kept g kept' _ _ => exact .inr ⟨f, g, fun _ _ => rfl⟩
        · exact .inl ⟨_, fun _ _ => rfl⟩
        · exact .inl ⟨_, fun _ _ => rfl⟩

/-- What is refuted under some limits by some solver is refuted under other limits by another, if
that one says unsatisfiable whenever the first one does. -/
theorem refute_isSome_of_unsat
    (unsat : ∀ f, (solver.check settings.domain l f).value = .unsat →
      (solver'.check settings.domain l' f).value = .unsat) {f g : Formula}
    (refuted : ((settings.under l).refute solver f g).value.isSome = true) :
    ((settings.under l').refute solver' f g).value.isSome = true := by
  have queries (l : Solver.Limits) : (settings.under l).query? f g = settings.query? f g := rfl
  rw [refute_value, queries] at refuted ⊢
  rcases query?_cases settings f g with ⟨b, constant, none⟩ | asked
  · rw [none] at refuted ⊢
    exact refuted
  · rw [asked] at refuted ⊢
    dsimp only at refuted ⊢
    split at refuted
    · next answer =>
      have answer' := unsat _ answer
      split
      · rfl
      · next other => exact absurd answer' other
    · cases refuted

/-- A comparison claims what it claims with a solver that refutes less. -/
theorem claims_of_unsat
    (unsat : ∀ f, (solver.check settings.domain l f).value = .unsat →
      (solver'.check settings.domain l' f).value = .unsat) (first second : String) :
    (((settings.under l).compare (.refutation solver) first second).ClaimsForward →
        ((settings.under l').compare (.refutation solver') first second).ClaimsForward) ∧
      (((settings.under l).compare (.refutation solver) first second).ClaimsBackward →
        ((settings.under l').compare (.refutation solver') first second).ClaimsBackward) := by
  rcases compare_cases settings first second with ⟨v, eq⟩ | ⟨f, g, eq⟩
  · rw [eq, eq]
    exact ⟨id, id⟩
  · rw [eq, eq, Verdict.claimsForward_ofDirections, Verdict.claimsForward_ofDirections,
      Verdict.claimsBackward_ofDirections, Verdict.claimsBackward_ofDirections]
    exact ⟨refute_isSome_of_unsat unsat, refute_isSome_of_unsat unsat⟩

open Solver in
/-- An answer under limits is the answer under wider ones, and an answer that comes in spite of
refused requests is the one that comes without any refusal. So a comparison under tighter limits,
or with limits and refusals of its own for each query, claims nothing that the comparison under
wider limits does not claim. -/
theorem limits_only_blur :
    (∀ (d : Domain) (f : Formula) (l l' : Limits), l.Within l' →
      (elimination.check d l f).value ≠ .unknown →
        (elimination.check d l' f).value = (elimination.check d l f).value) ∧
    (∀ (d : Domain) (f : Formula) (l : Limits), (elimination.check d l f).value = .unknown ∨
      (elimination.check d l f).value = (elimination.check d l.uninterrupted f).value) ∧
    (∀ (settings : Settings) (l l' : Limits), l.Within l' → ∀ first second : String,
      (((settings.under l).compare (.refutation .elimination) first second).ClaimsForward →
        ((settings.under l').compare (.refutation .elimination) first second).ClaimsForward) ∧
      (((settings.under l).compare (.refutation .elimination) first second).ClaimsBackward →
        ((settings.under l').compare (.refutation .elimination) first second).ClaimsBackward)) ∧
    ∀ (settings : Settings) (each : Formula → Limits), (∀ f, (each f).Within settings.limits) →
      ∀ first second : String,
      ((settings.compare (.refutation (limited each)) first second).ClaimsForward →
        (settings.compare (.refutation .elimination) first second).ClaimsForward) ∧
      ((settings.compare (.refutation (limited each)) first second).ClaimsBackward →
        (settings.compare (.refutation .elimination) first second).ClaimsBackward) := by
  have unsat {d : Domain} {f : Formula} {l l' : Limits} (wider : l.Within l')
      (answer : (elimination.check d l f).value = .unsat) :
      (elimination.check d l' f).value = .unsat := by
    rw [elimination_check_eq wider (by rw [answer]; simp), answer]
  refine ⟨fun d f l l' wider answered => ?_, fun d f l => ?_, ?_, ?_⟩
  · rw [elimination_check_eq wider answered]
  · rw [or_iff_not_imp_left]
    intro answered
    rw [elimination_check_eq l.within_uninterrupted answered]
  · intro settings l l' wider
    exact claims_of_unsat fun f => unsat wider
  · intro settings each wider
    have refutes : ∀ f,
        ((limited each).check settings.domain settings.limits f).value = .unsat →
          (elimination.check settings.domain settings.limits f).value = .unsat :=
      fun f => unsat (wider f)
    exact claims_of_unsat refutes

/-- Three branches, eight rows and twelve granted requests. -/
def narrow : Solver.Limits := ⟨3, 8, fun i => i < 12⟩

theorem narrow_within : narrow.Within {} := ⟨by decide, by decide, fun _ _ => rfl⟩

set_option maxRecDepth 4000 in
/-- Three branches are enough for one direction only. -/
theorem limits_only_blur_narrow :
    Settings.compare {} (.refutation (.limited fun _ => narrow)) "(p || q) && (!p || q)" "q" =
      .secondStronger ∧
    (Settings.compare {} (.refutation .elimination)
      "(p || q) && (!p || q)" "q").ClaimsBackward ∧
    (Settings.compare (Settings.under {} {}) (.refutation .elimination)
      "(p || q) && (!p || q)" "q").ClaimsBackward ∧
    (Solver.elimination.check .integer {} (.constraint ⟨.symbol "x", .range (some 1) none⟩)).value =
      (Solver.elimination.check .integer narrow
        (.constraint ⟨.symbol "x", .range (some 1) none⟩)).value := by
  have claim : Settings.compare {} (.refutation (.limited fun _ => narrow))
      "(p || q) && (!p || q)" "q" = .secondStronger := by cbv
  have same : ∀ f, ((Solver.limited fun _ => narrow).check (Settings.domain {}) {} f).value =
      .unsat → (Solver.elimination.check (Settings.domain {}) narrow f).value = .unsat :=
    fun _ => id
  have claim' := (claims_of_unsat same "(p || q) && (!p || q)" "q").2 (.inl claim)
  have answer : (Solver.elimination.check .integer narrow
      (.constraint ⟨.symbol "x", .range (some 1) none⟩)).value = .sat := by cbv
  have answered : (Solver.elimination.check .integer narrow
      (.constraint ⟨.symbol "x", .range (some 1) none⟩)).value ≠ .unknown := by
    rw [answer]
    decide
  obtain ⟨wider, -, tighter, interrupted⟩ := limits_only_blur
  exact ⟨claim, (interrupted {} _ (fun _ => narrow_within) _ _).2 (.inl claim),
    (tighter {} narrow {} narrow_within _ _).2 claim',
    wider .integer _ narrow {} narrow_within answered⟩

end Settings
end PredicateStrength
