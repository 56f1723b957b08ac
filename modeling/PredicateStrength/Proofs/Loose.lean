import Mathlib
import PredicateStrength.Proofs.Comparison
import PredicateStrength.Proofs.Formula.Embedding
import PredicateStrength.Proofs.Formula.Ordered
import PredicateStrength.Proofs.Solver.Witness

/-!
# Loose models

A loose model gives a truth value to every atom and an integer to every polynomial, each chosen for
itself: `x + y` may be three where `x` and `y` are zero. It is at least zero where the domain makes
the polynomial so. Simplification keeps truth in loose models too, since it never looks at two
polynomials together, and a satisfiable answer of the elimination comes with a loose model.

Main statements: `Formula.holdsIn_simplify`, `Solver.exists_loose_of_sat` and
`Settings.refute_isSome_of_loose`.
-/
namespace PredicateStrength

/-- Truth values of the atoms, and an integer for each polynomial. -/
structure Loose (d : Domain) where
  truth : Atom → Bool
  number : Poly → Int
  nonneg : d = .unsigned → ∀ p : Poly, p.isNonneg = true → 0 ≤ number p

instance {d : Domain} : Inhabited (Loose d) := ⟨⟨fun _ => false, fun _ => 0, fun _ _ _ => le_refl 0⟩⟩

variable {d : Domain}

/-- The valuation that makes a polynomial's own atom what the polynomial is. -/
def Loose.valuation (L : Loose d) : Valuation where
  truth := L.truth
  number
    | .rem p _ => L.number p
    | _ => 0

theorem Loose.value_independent (L : Loose d) (p : Poly) :
    L.valuation.value (Embedding.independent.poly p) = L.number p := by
  rw [Embedding.independent, Valuation.value_ofAtom]
  rfl

namespace Formula

/-- The formula is true in the loose model. -/
def HoldsIn (L : Loose d) (f : Formula) : Prop := (f.map .independent).Holds L.valuation

variable {L : Loose d} {f g : Formula} {fs : List Formula}

theorem holdsIn_const {b : Bool} : (const b).HoldsIn L ↔ b = true := Iff.rfl

theorem holdsIn_prop {a : Atom} : (prop a).HoldsIn L ↔ L.truth a = true := Iff.rfl

theorem holdsIn_constraint {c : Constraint} :
    (constraint c).HoldsIn L ↔ c.bound.Admits (L.number c.poly) := by
  show Bound.Admits c.bound (L.valuation.value (Embedding.independent.poly c.poly)) ↔ _
  rw [L.value_independent]

theorem holdsIn_not : (not f).HoldsIn L ↔ ¬f.HoldsIn L := Iff.rfl

theorem holdsIn_and : (and fs).HoldsIn L ↔ ∀ f ∈ fs, f.HoldsIn L := by
  show HoldAll L.valuation (mapAll .independent fs) ↔ _
  rw [mapAll_eq_map, holdAll_iff, List.forall_mem_map]
  rfl

theorem holdsIn_or : (or fs).HoldsIn L ↔ ∃ f ∈ fs, f.HoldsIn L := by
  show HoldSome L.valuation (mapAll .independent fs) ↔ _
  rw [mapAll_eq_map, holdSome_iff]
  simp only [List.mem_map, exists_exists_and_eq_and]
  rfl

mutual
theorem over_map {E : Embedding} {P : Poly → Prop} (h : ∀ p, P (E.poly p)) :
    ∀ f : Formula, (f.map E).Over P
  | .const _ | .prop _ => trivial
  | .constraint c => h c.poly
  | .not f => over_map h f
  | .and fs | .or fs => overAll_mapAll h fs

theorem overAll_mapAll {E : Embedding} {P : Poly → Prop} (h : ∀ p, P (E.poly p)) :
    ∀ fs : List Formula, OverAll P (mapAll E fs)
  | [] => trivial
  | f :: fs => ⟨over_map h f, overAll_mapAll h fs⟩
end

/-- Simplification keeps truth in loose models, whatever the polynomials are. -/
theorem holdsIn_simplify (L : Loose d) (f : Formula) :
    (f.simplify d).HoldsIn L ↔ f.HoldsIn L := by
  have fits : (f.map .independent).Over (L.valuation.Fits d) := over_map (fun p => ⟨
    Poly.integerCoeffs_ofAtom _, fun unsigned nonneg => by
      rw [L.value_independent, Int.cast_nonneg_iff]
      exact L.nonneg unsigned p ((Embedding.isNonneg_poly _ p).symm.trans nonneg)⟩) f
  rw [HoldsIn, ← simplify_map, holds_simplify_of_fits fits]
  rfl

end Formula

namespace Nnf

mutual
theorem holds_map {E : Embedding} {V : Valuation} : ∀ f : Nnf,
    (f.map E).Holds V ↔ f.HoldsBy (fun a => V.truth (E.atom a)) fun c => (c.map E).Holds V
  | .const _ | .literal _ _ | .constraint _ => Iff.rfl
  | .all fs => holdAll_mapAll fs
  | .any fs => holdSome_mapAll fs

theorem holdAll_mapAll {E : Embedding} {V : Valuation} : ∀ fs : List Nnf,
    HoldAll V (mapAll E fs) ↔
      HoldAllBy (fun a => V.truth (E.atom a)) (fun c => (c.map E).Holds V) fs
  | [] => Iff.rfl
  | f :: fs => and_congr (holds_map f) (holdAll_mapAll fs)

theorem holdSome_mapAll {E : Embedding} {V : Valuation} : ∀ fs : List Nnf,
    HoldSome V (mapAll E fs) ↔
      HoldSomeBy (fun a => V.truth (E.atom a)) (fun c => (c.map E).Holds V) fs
  | [] => Iff.rfl
  | f :: fs => or_congr (holds_map f) (holdSome_mapAll fs)
end

mutual
theorem holdsBy_mono {truth : Atom → Bool} {C D : Constraint → Prop} (h : ∀ c, C c → D c) :
    ∀ f : Nnf, f.HoldsBy truth C → f.HoldsBy truth D
  | .const _ | .literal _ _ => id
  | .constraint c => h c
  | .all fs => holdAllBy_mono h fs
  | .any fs => holdSomeBy_mono h fs

theorem holdAllBy_mono {truth : Atom → Bool} {C D : Constraint → Prop} (h : ∀ c, C c → D c) :
    ∀ fs : List Nnf, HoldAllBy truth C fs → HoldAllBy truth D fs
  | [] => id
  | f :: fs => And.imp (holdsBy_mono h f) (holdAllBy_mono h fs)

theorem holdSomeBy_mono {truth : Atom → Bool} {C D : Constraint → Prop} (h : ∀ c, C c → D c) :
    ∀ fs : List Nnf, HoldSomeBy truth C fs → HoldSomeBy truth D fs
  | [] => id
  | f :: fs => Or.imp (holdsBy_mono h f) (holdSomeBy_mono h fs)
end

end Nnf

/-- A bound that leaves a rational, with excluded values at a distance, leaves its floor. -/
theorem Bound.Separates.floor {b : Bound} {x : Rat} (h : b.Separates x) :
    b.Admits ((⌊x⌋ : Int) : Rat) := by
  cases b with
  | range lo hi =>
    obtain ⟨low, high⟩ := h
    refine ⟨fun l hl => ?_, fun u hu => (Int.floor_le x).trans (high u hu)⟩
    exact_mod_cast Int.le_floor.2 (low l hl)
  | ne v =>
    rw [Bound.Admits, ne_eq, Int.cast_inj]
    rintro rfl
    rcases h with below | above
    · linarith [Int.floor_le x]
    · linarith [Int.lt_floor_add_one x]

/-- Where the domain makes the monomials at least zero, it makes the sum so. -/
theorem Poly.valueAt_nonneg {w : Monomial → Rat} (monomials : ∀ m : Monomial, m.isNonneg = true →
    0 ≤ w m) {p : Poly} (nonneg : p.isNonneg = true) : 0 ≤ p.valueAt w := by
  obtain ⟨ts⟩ := p
  change Term.allNonneg ts = true at nonneg
  show 0 ≤ Term.sumAt w ts
  induction ts with
  | nil => exact le_refl _
  | cons t ts ih =>
    obtain ⟨m, c⟩ := t
    simp only [Term.allNonneg, Bool.and_eq_true, decide_eq_true_eq] at nonneg
    rw [Term.sumAt_cons]
    exact add_nonneg (mul_nonneg nonneg.1.1 (monomials m nonneg.1.2)) (ih nonneg.2)

namespace Solver

variable {l : Limits} {f : Formula}

/-- The integers below the values of a relaxation. -/
def Relaxes.loose {cs : List Constraint} {w : Monomial → Rat} (h : Relaxes d cs w)
    (truth : Atom → Bool) : Loose d where
  truth := truth
  number p := ⌊p.valueAt w⌋
  nonneg unsigned _ nonneg := Int.floor_nonneg.2 (Poly.valueAt_nonneg (h.nonneg unsigned) nonneg)

/-- What is answered to be satisfiable holds in a loose model. -/
theorem exists_loose_of_sat (wf : f.WellFormed) (sat : (elimination.check d l f).value = .sat) :
    ∃ L : Loose d, f.HoldsIn L := by
  obtain ⟨truth, es, w, relaxes, holds⟩ := exists_witness_of_sat wf sat
  refine ⟨relaxes.loose truth, ?_⟩
  have floors := Nnf.holdsBy_mono (D := fun c => (c.map .independent).Holds
    (relaxes.loose truth).valuation) (fun c separates => ?_) _ holds
  · have ints : (f.map .independent).Over Poly.IntegerCoeffs :=
      Formula.over_map (fun p => Poly.integerCoeffs_ofAtom _) f
    have image : ((Nnf.ofFormula true f).map .independent).Holds (relaxes.loose truth).valuation :=
      (Nnf.holds_map _).2 floors
    rw [← Nnf.ofFormula_map, Nnf.holds_ofFormula true ints] at image
    exact image.2 rfl
  · exact Formula.holdsIn_constraint.2 separates.floor

end Solver

namespace Settings

variable {settings : Settings} {f g : Formula}

/-- The formula that a solver is asked about to refute `f && !g`; `none` if simplification settles
it. -/
def query? (settings : Settings) (f g : Formula) : Option Formula :=
  match (Formula.and [f, .not g]).simplify settings.domain with
  | .const _ => none
  | query => some query

/-- The formulas that a solver is asked about when two texts are compared. -/
def queries (settings : Settings) (first second : String) : List Formula :=
  match (settings.read first).value, (settings.read second).value with
  | .ok p, .ok q =>
    if p.canonical = q.canonical then []
    else
      match p.canonical.toFormula.result, q.canonical.toFormula.result with
      | .ok f, .ok g => (settings.query? f g).toList ++ (settings.query? g f).toList
      | _, _ => []
  | _, _ => []

/-- No call of the elimination that comparing two texts makes runs out of its budget. -/
def Answered (settings : Settings) (first second : String) : Prop :=
  ∀ query ∈ settings.queries first second,
    (Solver.elimination.check settings.domain settings.limits query).value ≠ .unknown

variable {first second : String} {e₁ e₂ : Expr}

/-- The queries of two texts with different canonical trees that have formulas. -/
theorem queries_eq (read₁ : Expr.ofText (settings.expand first) = .ok e₁)
    (read₂ : Expr.ofText (settings.expand second) = .ok e₂)
    (different : e₁.canonical ≠ e₂.canonical) (converted₁ : e₁.canonical.toFormula.result = .ok f)
    (converted₂ : e₂.canonical.toFormula.result = .ok g) :
    settings.queries first second =
      (settings.query? f g).toList ++ (settings.query? g f).toList := by
  rw [queries, read_value read₁, read_value read₂]
  dsimp only
  rw [if_neg different, converted₁, converted₂]

/-- Each direction of such a comparison has its answer. -/
theorem Answered.query? (answered : settings.Answered first second)
    (read₁ : Expr.ofText (settings.expand first) = .ok e₁)
    (read₂ : Expr.ofText (settings.expand second) = .ok e₂)
    (different : e₁.canonical ≠ e₂.canonical) (converted₁ : e₁.canonical.toFormula.result = .ok f)
    (converted₂ : e₂.canonical.toFormula.result = .ok g) {query : Formula}
    (asked : settings.query? f g = some query ∨ settings.query? g f = some query) :
    (Solver.elimination.check settings.domain settings.limits query).value ≠ .unknown := by
  have mem : query ∈ settings.queries first second := by
    rw [queries_eq read₁ read₂ different converted₁ converted₂, List.mem_append,
      Option.mem_toList, Option.mem_toList]
    exact asked
  exact answered query mem

theorem query?_cases (settings : Settings) (f g : Formula) :
    (∃ b, (Formula.and [f, .not g]).simplify settings.domain = .const b ∧
      settings.query? f g = none) ∨
    settings.query? f g = some ((Formula.and [f, .not g]).simplify settings.domain) := by
  unfold query?
  cases (Formula.and [f, .not g]).simplify settings.domain
  case const b => exact .inl ⟨b, rfl, rfl⟩
  all_goals exact .inr rfl

/-- The solver is asked about the query and nothing else. -/
theorem refute_value (settings : Settings) (solver : Solver) (f g : Formula) :
    (settings.refute solver f g).value =
      match settings.query? f g with
      | none =>
        if ((Formula.and [f, .not g]).simplify settings.domain).isConst false then
          some .simplifier
        else none
      | some query =>
        if (solver.check settings.domain settings.limits query).value = .unsat then
          some (.solver solver.name)
        else none := by
  unfold query? refute
  dsimp only [Logged.value_bind]
  generalize (Formula.and [f, .not g]).simplify settings.domain = query
  cases query
  case const b => cases b <;> rfl
  all_goals rfl

/-- A direction that holds in all loose models is settled. -/
theorem refute_isSome_of_loose (wf : f.WellFormed) (wf' : g.WellFormed)
    (answered : ∀ query, settings.query? f g = some query →
      (Solver.elimination.check settings.domain settings.limits query).value ≠ .unknown)
    (implies : ∀ L : Loose settings.domain, f.HoldsIn L → g.HoldsIn L) :
    (settings.refute .elimination f g).value.isSome = true := by
  have unmet : ∀ L : Loose settings.domain,
      ¬((Formula.and [f, .not g]).simplify settings.domain).HoldsIn L := by
    intro L holds
    rw [Formula.holdsIn_simplify, Formula.holdsIn_and] at holds
    exact holds (.not g) (by simp) (implies L (holds f (by simp)))
  have ordered : (Formula.and [f, .not g]).WellFormed := ⟨wf, wf', trivial⟩
  rw [refute_value]
  rcases query?_cases settings f g with ⟨b, constant, none⟩ | asked
  · rw [none, constant]
    cases b with
    | false => rfl
    | true => exact absurd (constant ▸ Formula.holdsIn_const.2 rfl) (unmet default)
  · have unsat : (Solver.elimination.check settings.domain settings.limits
        ((Formula.and [f, .not g]).simplify settings.domain)).value = .unsat := by
      cases answer : (Solver.elimination.check settings.domain settings.limits
        ((Formula.and [f, .not g]).simplify settings.domain)).value with
      | unsat => rfl
      | unknown => exact absurd answer (answered _ asked)
      | sat =>
        obtain ⟨L, holds⟩ := Solver.exists_loose_of_sat (Formula.over_simplify ordered) answer
        exact absurd holds (unmet L)
    rw [asked]
    dsimp only
    rw [if_pos unsat]
    rfl

end Settings
end PredicateStrength
