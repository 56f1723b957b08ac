import Mathlib
import PredicateStrength.Proofs.Formula.Sorts
import PredicateStrength.Proofs.Solver.Relaxation
import PredicateStrength.Solver.Search

/-!
# A refuted formula has no model

The search says no only when every case of the formula is infeasible. So an admissible valuation
that satisfies the formula picks a case, at each disjunction and at each disequality, in which the
search cannot say no: its constraints solve the linear relaxation.

Main statement: an unsatisfiable answer is right, for every formula, domain and budget
(`not_holds_of_unsat`), also under valuations that take an application for a number of its own.
Of another solver less is asked: its unsatisfiable answers have to be right where applications
are functions of their arguments (`Solver.Sound`).
-/
namespace PredicateStrength

variable {V : Valuation} {d : Domain}

theorem Bound.admits_complement {b : Bound} {n : Int} :
    (∃ e ∈ b.complement, e.Admits n) ↔ ¬b.Admits n := by
  cases b with
  | range lo hi =>
    cases lo with
    | none =>
      cases hi with
      | none => simp [complement, Admits]
      | some h =>
        simp only [complement, Admits, Option.map_none, Option.map_some, Option.toList_none,
          Option.toList_some, List.nil_append, List.mem_singleton, exists_eq_left,
          Option.mem_def, reduceCtorEq, false_imp_iff, implies_true, and_true, true_and,
          Option.some.injEq, forall_eq', Int.cast_le]
        omega
    | some l =>
      cases hi with
      | none =>
        simp only [complement, Admits, Option.map_none, Option.map_some, Option.toList_none,
          Option.toList_some, List.append_nil, List.mem_singleton, exists_eq_left,
          Option.mem_def, reduceCtorEq, false_imp_iff, implies_true, and_true, true_and,
          Option.some.injEq, forall_eq', Int.cast_le]
        omega
      | some h =>
        simp only [complement, Admits, Option.map_some, Option.toList_some, List.cons_append,
          List.nil_append, List.mem_cons, List.not_mem_nil, or_false, exists_eq_or_imp,
          exists_eq_left, Option.mem_def, reduceCtorEq, false_imp_iff, implies_true, and_true,
          true_and, Option.some.injEq, forall_eq', Int.cast_le]
        omega
  | ne w =>
    simp only [complement, Admits, List.mem_singleton, exists_eq_left, Option.mem_def,
      Option.some.injEq, forall_eq', Int.cast_le, ne_eq, Int.cast_inj]
    omega

theorem Constraint.holds_complement {c : Constraint} (ints : c.poly.IntegerCoeffs) :
    (∃ e ∈ c.complement, e.Holds V) ↔ ¬c.Holds V := by
  obtain ⟨n, hn⟩ := ints.value_eq_int V.number
  have value : V.value c.poly = n := hn
  simp only [complement, List.mem_map, exists_exists_and_eq_and, Holds, value]
  exact Bound.admits_complement

namespace Nnf

mutual
/-- The formula is true. -/
def Holds (V : Valuation) : Nnf → Prop
  | .const b => b = true
  | .literal a value => V.truth a = value
  | .constraint c => c.Holds V
  | .all fs => HoldAll V fs
  | .any fs => HoldSome V fs

def HoldAll (V : Valuation) : List Nnf → Prop
  | [] => True
  | f :: fs => f.Holds V ∧ HoldAll V fs

def HoldSome (V : Valuation) : List Nnf → Prop
  | [] => False
  | f :: fs => f.Holds V ∨ HoldSome V fs
end

mutual
/-- `P` holds of the polynomial of every constraint. -/
def Over (P : Poly → Prop) : Nnf → Prop
  | .const _ => True
  | .literal _ _ => True
  | .constraint c => P c.poly
  | .all fs => OverAll P fs
  | .any fs => OverAll P fs

def OverAll (P : Poly → Prop) : List Nnf → Prop
  | [] => True
  | f :: fs => f.Over P ∧ OverAll P fs
end

theorem holdSome_constraints (cs : List Constraint) :
    HoldSome V (cs.map .constraint) ↔ ∃ c ∈ cs, c.Holds V := by
  induction cs with
  | nil => simp [HoldSome]
  | cons c cs ih => simp [HoldSome, Holds, ih]

theorem holds_anyConstraint (cs : List Constraint) :
    (anyConstraint cs).Holds V ↔ ∃ c ∈ cs, c.Holds V := by
  match cs with
  | [] => simp [anyConstraint, Holds]
  | [c] => simp [anyConstraint, Holds]
  | c :: e :: cs =>
    rw [anyConstraint, Holds, holdSome_constraints]
    · simp
    · simp

theorem over_anyConstraint {P : Poly → Prop} {cs : List Constraint} (h : ∀ c ∈ cs, P c.poly) :
    (anyConstraint cs).Over P := by
  have all : ∀ {es : List Constraint}, (∀ c ∈ es, P c.poly) → OverAll P (es.map .constraint) := by
    intro es hes
    induction es with
    | nil => trivial
    | cons e es ih =>
      exact ⟨hes e (by simp), ih fun c hc => hes c (List.mem_cons_of_mem _ hc)⟩
  match cs with
  | [] => trivial
  | [c] => exact h c (by simp)
  | c :: e :: cs => exact all h

mutual
/-- The normal form means what the formula or its negation means. -/
theorem holds_ofFormula (positive : Bool) : ∀ {f : Formula}, f.Over Poly.IntegerCoeffs →
    ((ofFormula positive f).Holds V ↔ (f.Holds V ↔ positive = true))
  | .const b, _ => by cases b <;> cases positive <;> simp [ofFormula, Holds, Formula.Holds]
  | .prop a, _ => by cases positive <;> simp [ofFormula, Holds, Formula.Holds]
  | .constraint c, ints => by
    cases positive with
    | true => simp [ofFormula, Holds, Formula.Holds]
    | false =>
      rw [ofFormula, if_neg (by simp), holds_anyConstraint,
        Constraint.holds_complement ints]
      simp [Formula.Holds]
  | .not f, ints => by
    rw [ofFormula, holds_ofFormula (!positive) (f := f) ints]
    cases positive <;> simp [Formula.Holds]
  | .and fs, ints => by
    cases positive with
    | true => simpa [ofFormula, Holds, Formula.Holds] using holdAll_ofFormulas ints
    | false => simpa [ofFormula, Holds, Formula.Holds] using holdSome_ofFormulas_negative ints
  | .or fs, ints => by
    cases positive with
    | true => simpa [ofFormula, Holds, Formula.Holds] using holdSome_ofFormulas ints
    | false => simpa [ofFormula, Holds, Formula.Holds] using holdAll_ofFormulas_negative ints

theorem holdAll_ofFormulas : ∀ {fs : List Formula}, Formula.OverAll Poly.IntegerCoeffs fs →
    (HoldAll V (ofFormulas true fs) ↔ Formula.HoldAll V fs)
  | [], _ => Iff.rfl
  | f :: fs, ints => by
    rw [ofFormulas, HoldAll, Formula.HoldAll, holds_ofFormula true ints.1,
      holdAll_ofFormulas ints.2]
    simp

theorem holdSome_ofFormulas : ∀ {fs : List Formula}, Formula.OverAll Poly.IntegerCoeffs fs →
    (HoldSome V (ofFormulas true fs) ↔ Formula.HoldSome V fs)
  | [], _ => Iff.rfl
  | f :: fs, ints => by
    rw [ofFormulas, HoldSome, Formula.HoldSome, holds_ofFormula true ints.1,
      holdSome_ofFormulas ints.2]
    simp

theorem holdSome_ofFormulas_negative : ∀ {fs : List Formula},
    Formula.OverAll Poly.IntegerCoeffs fs →
      (HoldSome V (ofFormulas false fs) ↔ ¬Formula.HoldAll V fs)
  | [], _ => by simp [ofFormulas, HoldSome, Formula.HoldAll]
  | f :: fs, ints => by
    rw [ofFormulas, HoldSome, Formula.HoldAll, holds_ofFormula false ints.1,
      holdSome_ofFormulas_negative ints.2]
    simp
    tauto

theorem holdAll_ofFormulas_negative : ∀ {fs : List Formula},
    Formula.OverAll Poly.IntegerCoeffs fs →
      (HoldAll V (ofFormulas false fs) ↔ ¬Formula.HoldSome V fs)
  | [], _ => by simp [ofFormulas, HoldAll, Formula.HoldSome]
  | f :: fs, ints => by
    rw [ofFormulas, HoldAll, Formula.HoldSome, holds_ofFormula false ints.1,
      holdAll_ofFormulas_negative ints.2]
    simp
end

mutual
/-- Polynomials of the normal form are polynomials of the formula. -/
theorem over_ofFormula {P : Poly → Prop} (positive : Bool) : ∀ {f : Formula}, f.Over P →
    (ofFormula positive f).Over P
  | .const _, _ => trivial
  | .prop _, _ => trivial
  | .constraint c, every => by
    rw [ofFormula]
    split
    · exact every
    · refine over_anyConstraint fun e he => ?_
      obtain ⟨b, _, rfl⟩ := List.mem_map.1 he
      exact every
  | .not f, every => by
    rw [ofFormula]
    exact over_ofFormula (!positive) (f := f) every
  | .and fs, every => by
    rw [ofFormula]
    split
    · exact over_ofFormulas positive every
    · exact over_ofFormulas positive every
  | .or fs, every => by
    rw [ofFormula]
    split
    · exact over_ofFormulas positive every
    · exact over_ofFormulas positive every

theorem over_ofFormulas {P : Poly → Prop} (positive : Bool) : ∀ {fs : List Formula},
    Formula.OverAll P fs → OverAll P (ofFormulas positive fs)
  | [], _ => trivial
  | _ :: _, every => ⟨over_ofFormula positive every.1, over_ofFormulas positive every.2⟩
end

end Nnf

namespace Solver

/-- Whatever the limits and the progress are, the computation does not say no. -/
def Budgeted.NeverNo (c : Budgeted Bool) : Prop := ∀ l s, (c l s).1 ≠ some false

namespace Budgeted

theorem neverNo_pure_true : NeverNo (pure true) := by
  intro l s
  simp [run_pure]

theorem NeverNo.orElse_left {c : Budgeted Bool} (h : c.NeverNo) (e : Budgeted Bool) :
    (c.orElse e).NeverNo := by
  intro l s
  have hc := h l s
  rw [Budgeted.orElse, run_bind]
  rcases run : c l s with ⟨outcome, s'⟩
  rw [run] at hc
  match outcome with
  | none => simp
  | some true => simp [run_pure]
  | some false => exact absurd rfl hc

theorem NeverNo.orElse_right (c : Budgeted Bool) {e : Budgeted Bool} (h : e.NeverNo) :
    (c.orElse e).NeverNo := by
  intro l s
  rw [Budgeted.orElse, run_bind]
  rcases c l s with ⟨outcome, s'⟩
  match outcome with
  | none => simp
  | some true => simp [run_pure]
  | some false => exact h l s'

theorem NeverNo.startBranch {c : Budgeted Bool} (h : c.NeverNo) :
    NeverNo (do Budgeted.startBranch; c) := by
  intro l s
  rw [run_bind]
  rcases Budgeted.startBranch l s with ⟨outcome, s'⟩
  cases outcome with
  | none => simp
  | some _ => exact h l s'

end Budgeted

/-- The valuation is as the cube assumes, and the constraints are regular. -/
structure Satisfies (V : Valuation) (cube : Cube) : Prop where
  truths : ∀ a b, cube.truths.lookup a = some b → V.truth a = b
  constraints : ∀ c ∈ cube.constraints, c.Holds V
  regular : RegularConstraints cube.constraints

theorem neverNo_ifFeasible (adm : V.Admissible d) {cs : List Constraint}
    (regular : RegularConstraints cs) (holds : ∀ c ∈ cs, c.Holds V) {next : Budgeted Bool}
    (h : next.NeverNo) : (ifFeasible d cs next).NeverNo := by
  intro l s
  have feasible := eliminate_ne_false (solves_relax adm regular holds) l s
  rw [ifFeasible, Budgeted.run_bind]
  rcases run : eliminate (relax d cs) l s with ⟨outcome, s'⟩
  rw [run] at feasible
  match outcome with
  | none => simp
  | some true => exact h l s'
  | some false => exact absurd rfl feasible

/-- An integer other than `w` lies on one of the two sides. -/
theorem holds_side {p : Poly} {w : Int} (ints : p.Integral)
    (holds : Constraint.Holds V ⟨p, .ne w⟩) :
    Constraint.Holds V ⟨p, .range none (some (w - 1))⟩ ∨
      Constraint.Holds V ⟨p, .range (some (w + 1)) none⟩ := by
  obtain ⟨n, hn⟩ := ints.here.value_eq_int V.number
  have value : V.value p = n := hn
  simp only [Constraint.Holds, Bound.Admits, value, Option.mem_def, reduceCtorEq, false_imp_iff,
    implies_true, and_true, true_and, Option.some.injEq, forall_eq', Int.cast_le, ne_eq,
    Int.cast_inj] at holds ⊢
  omega

theorem neverNo_splitDisequalities (adm : V.Admissible d) (done cs : List Constraint)
    (regular : RegularConstraints (done ++ cs)) (holds : ∀ c ∈ done ++ cs, c.Holds V) :
    (splitDisequalities d done cs).NeverNo := by
  induction cs generalizing done with
  | nil => exact Budgeted.neverNo_pure_true
  | cons c cs ih =>
    obtain ⟨p, bound⟩ := c
    rw [splitDisequalities]
    cases bound with
    | range lo hi => exact ih _ (by simpa using regular) (by simpa using holds)
    | ne w =>
      have polys := regular ⟨p, .ne w⟩ (by simp)
      have side : ∀ b, Constraint.Holds V ⟨p, b⟩ → Budgeted.NeverNo (do
          Budgeted.startBranch
          ifFeasible d (done ++ ⟨p, b⟩ :: cs) (splitDisequalities d (done ++ [⟨p, b⟩]) cs)) := by
        intro b hb
        have regular' : RegularConstraints (done ++ ⟨p, b⟩ :: cs) := by
          intro e he
          rcases List.mem_append.1 he with he | he
          · exact regular e (List.mem_append_left _ he)
          · rcases List.mem_cons.1 he with rfl | he
            · exact polys
            · exact regular e (List.mem_append_right _ (List.mem_cons_of_mem _ he))
        have holds' : ∀ e ∈ done ++ ⟨p, b⟩ :: cs, e.Holds V := by
          intro e he
          rcases List.mem_append.1 he with he | he
          · exact holds e (List.mem_append_left _ he)
          · rcases List.mem_cons.1 he with rfl | he
            · exact hb
            · exact holds e (List.mem_append_right _ (List.mem_cons_of_mem _ he))
        exact (neverNo_ifFeasible adm regular' holds'
          (ih _ (by simpa using regular') (by simpa using holds'))).startBranch
      rcases holds_side polys.2 (holds ⟨p, .ne w⟩ (by simp)) with low | high
      · exact (side _ low).orElse_left _
      · exact Budgeted.NeverNo.orElse_right _ (side _ high)

theorem neverNo_decideCube (adm : V.Admissible d) {cube : Cube} (h : Satisfies V cube) :
    (decideCube d cube).NeverNo :=
  neverNo_ifFeasible adm h.regular h.constraints
    (neverNo_splitDisequalities adm [] _ h.regular h.constraints)

theorem Satisfies.assume? {cube : Cube} (h : Satisfies V cube) {a : Atom} {b : Bool}
    (holds : V.truth a = b) : ∃ cube', cube.assume? a b = some cube' ∧ Satisfies V cube' := by
  unfold Cube.assume?
  split
  · next old known =>
    have same : old = b := (h.truths a old known).symm.trans holds
    exact ⟨cube, by simp [same], h⟩
  · refine ⟨_, rfl, fun e t known => ?_, h.constraints, h.regular⟩
    rw [List.lookup_cons] at known
    split at known
    · next same =>
      cases known
      rw [eq_of_beq same]
      exact holds
    · exact h.truths e t known

theorem Satisfies.require {cube : Cube} (h : Satisfies V cube) {c : Constraint}
    (holds : c.Holds V) (regular : c.poly.WellFormed ∧ c.poly.Integral) :
    Satisfies V (cube.require c) where
  truths := h.truths
  constraints := fun e he => (List.mem_append.1 he).elim (h.constraints e) fun he =>
    List.mem_singleton.1 he ▸ holds
  regular := fun e he => (List.mem_append.1 he).elim (h.regular e) fun he =>
    List.mem_singleton.1 he ▸ regular

/-- The continuation does not say no in a case that the valuation satisfies. -/
def Continues (V : Valuation) (next : Cube → Budgeted Bool) : Prop :=
  ∀ cube, Satisfies V cube → (next cube).NeverNo

mutual
theorem neverNo_search {next : Cube → Budgeted Bool} (hnext : Continues V next) {cube : Cube}
    (h : Satisfies V cube) : ∀ {f : Nnf}, f.Over (fun p => p.WellFormed ∧ p.Integral) →
      f.Holds V → (search next cube f).NeverNo
  | .const b, _, holds => by
    have isTrue : b = true := holds
    rw [search, if_pos isTrue]
    exact hnext cube h
  | .literal a value, _, holds => by
    obtain ⟨cube', assumed, h'⟩ := h.assume? holds
    rw [search, assumed]
    exact hnext cube' h'
  | .constraint c, regular, holds => by
    rw [search]
    exact hnext _ (h.require holds regular)
  | .all fs, regular, holds => by
    rw [search]
    exact neverNo_searchAll hnext h regular holds
  | .any fs, regular, holds => by
    rw [search]
    exact neverNo_searchAny hnext h regular holds

theorem neverNo_searchAll {next : Cube → Budgeted Bool} (hnext : Continues V next) {cube : Cube}
    (h : Satisfies V cube) : ∀ {fs : List Nnf},
      Nnf.OverAll (fun p => p.WellFormed ∧ p.Integral) fs → Nnf.HoldAll V fs →
        (searchAll next cube fs).NeverNo
  | [], _, _ => by
    rw [searchAll]
    exact hnext cube h
  | f :: fs, regular, holds => by
    rw [searchAll]
    exact neverNo_searchAll (fun _ h' => neverNo_search hnext h' regular.1 holds.1) h regular.2
      holds.2

theorem neverNo_searchAny {next : Cube → Budgeted Bool} (hnext : Continues V next) {cube : Cube}
    (h : Satisfies V cube) : ∀ {fs : List Nnf},
      Nnf.OverAll (fun p => p.WellFormed ∧ p.Integral) fs → Nnf.HoldSome V fs →
        (searchAny next cube fs).NeverNo
  | [], _, holds => holds.elim
  | f :: fs, regular, holds => by
    rw [searchAny]
    rcases holds with first | later
    · exact (neverNo_search hnext h regular.1 first).startBranch.orElse_left _
    · exact Budgeted.NeverNo.orElse_right _ (neverNo_searchAny hnext h regular.2 later)
end

/-- A valuation that satisfies the formula keeps the search from refuting it. -/
theorem neverNo_satisfiable (adm : V.Admissible d) {f : Formula} (wf : f.WellFormed)
    (ints : f.Integral) (holds : f.Holds V) : (satisfiable d f).NeverNo := by
  have start : Satisfies V {} := ⟨by simp, by simp, by simp [RegularConstraints]⟩
  refine neverNo_search (fun _ h => neverNo_decideCube adm h) start ?_ ?_
  · exact Nnf.over_ofFormula true (Formula.over_and wf ints)
  · exact (Nnf.holds_ofFormula true (Formula.over_mono (fun _ h => h.here) ints)).2
      (by simpa using holds)

theorem not_neverNo_of_unsat {l : Limits} {f : Formula}
    (unsat : (elimination.check d l f).value = .unsat) : ¬(satisfiable d f).NeverNo := by
  intro never
  have answer : Answer.ofOutcome (satisfiable d f l {}).1 = .unsat := unsat
  match outcome : (satisfiable d f l {}).1 with
  | none => simp [outcome, Answer.ofOutcome] at answer
  | some true => simp [outcome, Answer.ofOutcome] at answer
  | some false => exact never l {} outcome

/-- Whatever the limits are, what the solver calls unsatisfiable is false under the interpretation,
if it is well sorted under it. -/
def SoundAt (s : Solver) (d : Domain) (I : Interp Int) : Prop :=
  ∀ l f, f.WellFormed → f.Integral → (s.check d l f).value = .unsat → f.Sorted I →
    ¬f.Holds I.valuation

/-- An unsatisfiable answer is right under every interpretation of the names by truth values and
integers of the domain, where each name and each place has one sort. Calls, elements and members
are functions of what they are applied to, so the solver may use that equal arguments give equal
values. -/
def Sound (s : Solver) : Prop :=
  ∀ (d : Domain) (σ : Signature) (I : Interp Int), I.Respects σ → I.Reference d → s.SoundAt d I

/-- The elimination needs no sorts. -/
theorem elimination_soundAt {I : Interp Int} (ref : I.Reference d) : elimination.SoundAt d I := by
  intro l f wf ints unsat _ holds
  exact not_neverNo_of_unsat unsat (neverNo_satisfiable ref.admissible wf ints holds)

theorem elimination_sound : elimination.Sound := fun _ _ _ _ ref => elimination_soundAt ref

/-- The formula has no model if the search refutes it, whatever the domain and the limits are. -/
theorem not_holds_of_unsat (d : Domain) (l : Limits) {f : Formula} (wf : f.WellFormed)
    (ints : f.Integral) (unsat : (elimination.check d l f).value = .unsat) (V : Valuation)
    (adm : V.Admissible d) : ¬f.Holds V := by
  intro holds
  exact not_neverNo_of_unsat unsat (neverNo_satisfiable adm wf ints holds)

/-- A name is below half of itself, or `p` holds and does not. -/
def belowHalf : Formula :=
  .and [.or [.constraint ⟨.ofAtom (.quot (.ofAtom (.symbol "x")) (.const 2)) -
    .ofAtom (.symbol "x"), .range (some 1) none⟩, .prop (.symbol "p")], .not (.prop (.symbol "p"))]

theorem over_belowHalf {P : Poly → Prop} (name : ∀ a, P (.ofAtom a)) (two : P (.const 2))
    (sub : ∀ {p q : Poly}, P p → P q → P (p - q)) : belowHalf.Over (Poly.Everywhere P) := by
  have x : (Poly.ofAtom (.symbol "x")).Everywhere P := ⟨name _, ⟨trivial, trivial⟩, trivial⟩
  have half : (Atom.quot (.ofAtom (.symbol "x")) (.const 2)).Everywhere P :=
    ⟨x, Poly.everywhere_iff.2 ⟨two, by simp⟩⟩
  have difference := Poly.everywhere_iff.2
    ⟨sub (name (.quot (.ofAtom (.symbol "x")) (.const 2))) (name (.symbol "x")), fun a mem => ?_⟩
  · exact ⟨⟨difference, trivial, trivial⟩, trivial, trivial⟩
  · rcases Poly.atoms_sub mem with mem | mem <;> cases List.mem_singleton.1 mem
    · exact half
    · trivial

set_option maxRecDepth 4000 in
theorem not_holds_belowHalf : ¬belowHalf.Holds (Interp.uniform 7).valuation := by
  have unsat : (elimination.check .unsigned {} belowHalf).value = .unsat := by cbv
  have wf : belowHalf.WellFormed :=
    over_belowHalf Poly.ordered_ofAtom (Poly.ordered_const 2) fun hp hq => hp.sub hq
  have ints : belowHalf.Integral :=
    over_belowHalf Poly.integerCoeffs_ofAtom (Poly.integerCoeffs_const rfl) fun hp hq => hp.sub hq
  exact not_holds_of_unsat .unsigned {} wf ints unsat (Interp.uniform 7).valuation
    (Interp.reference_uniform (by decide) .unsigned).admissible

end Solver
end PredicateStrength
