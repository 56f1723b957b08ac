import Mathlib
import PredicateStrength.Formula.Simplify
import PredicateStrength.Proofs.Formula.Simplify
import PredicateStrength.Proofs.Solver.Refutation

/-!
# Replacing the atoms and polynomials of a formula

Simplification looks at atoms and polynomials only to order them and to ask which polynomials are
at least zero. So it commutes with every replacement that keeps the order and this answer, and what
it comes to does not depend on what the polynomials are made of.

Main statements: `Formula.simplify_map` and `Nnf.ofFormula_map`.
-/
namespace PredicateStrength

namespace Sorting

variable {α β : Type} {cmp : α → α → Ordering} {cmp' : β → β → Ordering} {g : α → β}

theorem insert_map (a : α) {as : List α} (same : ∀ b ∈ as, cmp' (g a) (g b) = cmp a b) :
    insert cmp' (g a) (as.map g) = (insert cmp a as).map g := by
  induction as with
  | nil => rfl
  | cons b bs ih =>
    obtain ⟨here, later⟩ := List.forall_mem_cons.1 same
    rw [List.map_cons, insert, insert, here]
    split
    · rfl
    · rw [ih later, List.map_cons]

theorem sort_map {as : List α} (same : ∀ a ∈ as, ∀ b ∈ as, cmp' (g a) (g b) = cmp a b) :
    sort cmp' (as.map g) = (sort cmp as).map g := by
  induction as with
  | nil => rfl
  | cons a as ih =>
    have later := fun b mem => same b (List.mem_cons_of_mem a mem)
    rw [List.map_cons, sort, ih fun b mem c mem' => later b mem c (List.mem_cons_of_mem a mem'),
      insert_map, ← sort]
    intro b mem
    exact same a List.mem_cons_self b (List.mem_cons_of_mem a ((mem_sort cmp).1 mem))

theorem insertDistinct_map (same : ∀ a b, cmp' (g a) (g b) = cmp a b) (a : α) (as : List α) :
    insertDistinct cmp' (g a) (as.map g) = (insertDistinct cmp a as).map g := by
  induction as with
  | nil => rfl
  | cons b bs ih =>
    rw [List.map_cons, insertDistinct, insertDistinct, same]
    split
    · rfl
    · rfl
    · rw [ih, List.map_cons]

theorem sortDistinct_map (same : ∀ a b, cmp' (g a) (g b) = cmp a b) (as : List α) :
    sortDistinct cmp' (as.map g) = (sortDistinct cmp as).map g := by
  induction as with
  | nil => rfl
  | cons a as ih => rw [List.map_cons, sortDistinct, ih, insertDistinct_map same, ← sortDistinct]

end Sorting

/-- A replacement of atoms and polynomials that simplification cannot see. -/
structure Embedding where
  atom : Atom → Atom
  poly : Poly → Poly
  cmp_atom : ∀ a b, (atom a).cmp (atom b) = a.cmp b
  cmp_poly : ∀ p q, (poly p).cmp (poly q) = p.cmp q
  isNonneg_poly : ∀ p, (poly p).isNonneg = p.isNonneg

namespace Embedding

variable (E : Embedding)

theorem poly_inj {p q : Poly} : E.poly p = E.poly q ↔ p = q := by
  rw [← Poly.cmp_eq_iff, E.cmp_poly, Poly.cmp_eq_iff]

/-- Each polynomial becomes an atom of its own. -/
def independent : Embedding where
  atom := id
  poly p := .ofAtom (.rem p .zero)
  cmp_atom _ _ := rfl
  cmp_poly p q := by
    simp [Poly.ofAtom, Monomial.ofAtom, Poly.cmp, Term.cmpList, Monomial.cmp, Factor.cmpList,
      Atom.cmp, Poly.zero, (ratCmp_eq_iff 1 1).2 rfl]
  isNonneg_poly p := by
    simp [Poly.ofAtom, Monomial.ofAtom, Poly.isNonneg, Term.allNonneg, Monomial.isNonneg,
      Factor.allNonneg, Atom.isNonneg]

end Embedding

variable (E : Embedding) {d : Domain}

/-- The same bound on the replaced polynomial. -/
def Constraint.map (c : Constraint) : Constraint := ⟨E.poly c.poly, c.bound⟩

namespace Formula

mutual
/-- The formula with its atoms and polynomials replaced. -/
def map : Formula → Formula
  | .const b => .const b
  | .prop a => .prop (E.atom a)
  | .constraint c => .constraint (c.map E)
  | .not f => .not f.map
  | .and fs => .and (mapAll fs)
  | .or fs => .or (mapAll fs)

def mapAll : List Formula → List Formula
  | [] => []
  | f :: fs => f.map :: mapAll fs
end

theorem mapAll_eq_map (fs : List Formula) : mapAll E fs = fs.map (map E) := by
  induction fs with
  | nil => rfl
  | cons f fs ih => rw [mapAll, ih, List.map_cons]

theorem constraint_cmp_map (c e : Constraint) : (c.map E).cmp (e.map E) = c.cmp e := by
  simp [Constraint.cmp, Constraint.map, E.cmp_poly]

mutual
/-- The order of formulas is kept. -/
theorem cmp_map : ∀ f g : Formula, (f.map E).cmp (g.map E) = f.cmp g
  | .const _, g => by cases g <;> simp [map, cmp, Formula.ctorIdx]
  | .prop _, g => by cases g <;> simp [map, cmp, Formula.ctorIdx, E.cmp_atom]
  | .constraint _, g => by cases g <;> simp [map, cmp, Formula.ctorIdx, constraint_cmp_map]
  | .not f, g => by cases g <;> simp [map, cmp, Formula.ctorIdx, cmp_map f]
  | .and fs, g => by cases g <;> simp [map, cmp, Formula.ctorIdx, cmpList_mapAll fs]
  | .or fs, g => by cases g <;> simp [map, cmp, Formula.ctorIdx, cmpList_mapAll fs]

theorem cmpList_mapAll : ∀ fs gs : List Formula,
    cmpList (mapAll E fs) (mapAll E gs) = cmpList fs gs
  | [], gs => by cases gs <;> simp [mapAll, cmpList]
  | f :: fs, gs => by cases gs <;> simp [mapAll, cmpList, cmp_map f, cmpList_mapAll fs]
end

theorem map_inj {f g : Formula} : f.map E = g.map E ↔ f = g := by
  rw [← cmp_eq_iff, cmp_map, cmp_eq_iff]

theorem mem_map_iff {f : Formula} {fs : List Formula} : f.map E ∈ fs.map (map E) ↔ f ∈ fs :=
  List.mem_map_of_injective fun _ _ => (map_inj E).1

end Formula

open Formula

theorem Constraint.negate_map (c : Constraint) : (c.map E).negate = c.negate.map E := by
  have each : ∀ fs : List Formula, (anyOf fs).map E = anyOf (fs.map (Formula.map E))
    | [] => rfl
    | [f] => rfl
    | f :: g :: fs => by
      rw [anyOf, Formula.map, mapAll_eq_map]
      · rfl
      · simp
      · simp
  rw [negate, negate, each, complement, complement, List.map_map, List.map_map, List.map_map]
  rfl

theorem Constraint.decide?_map (c : Constraint) : (c.map E).decide? d = c.decide? d := by
  simp [decide?, isNonneg, map, E.isNonneg_poly]

namespace Formula

mutual
theorem negate_map : ∀ f : Formula, (f.map E).negate = f.negate.map E
  | .const _ => rfl
  | .prop _ => rfl
  | .constraint c => c.negate_map E
  | .not _ => rfl
  | .and fs => by rw [map, negate, negate, map, negateAll_mapAll fs]
  | .or fs => by rw [map, negate, negate, map, negateAll_mapAll fs]

theorem negateAll_mapAll : ∀ fs : List Formula,
    negateAll (mapAll E fs) = mapAll E (negateAll fs)
  | [] => rfl
  | f :: fs => by rw [mapAll, negateAll, negateAll, mapAll, negate_map f, negateAll_mapAll fs]
end

theorem isConst_map (b : Bool) (f : Formula) : (f.map E).isConst b = f.isConst b := by
  cases f <;> rfl

end Formula

namespace Junction

variable (j : Junction)

theorem parts?_map (f : Formula) :
    j.parts? (f.map E) = (j.parts? f).map (List.map (Formula.map E)) := by
  cases j <;> cases f <;> simp [parts?, Formula.map, mapAll_eq_map]

theorem dualParts?_map (f : Formula) :
    j.dualParts? (f.map E) = (j.dualParts? f).map (List.map (Formula.map E)) := by
  cases j <;> cases f <;> simp [dualParts?, Formula.map, mapAll_eq_map]

theorem join_map (fs : List Formula) :
    j.join (fs.map (Formula.map E)) = (j.join fs).map E := by
  cases j <;> simp [join, Formula.map, mapAll_eq_map]

theorem flatten?_cons_of_ne {f : Formula} (plain : ∀ b, f ≠ .const b) (fs : List Formula) :
    j.flatten? (f :: fs) = (j.flatten? fs).map (((j.parts? f).getD [f]) ++ ·) := by
  rcases flatten?_cons j f fs with ⟨b, const, _⟩ | eq
  · exact absurd const (plain b)
  · exact eq

theorem flatten?_map (fs : List Formula) :
    j.flatten? (fs.map (Formula.map E)) = (j.flatten? fs).map (List.map (Formula.map E)) := by
  induction fs with
  | nil => rfl
  | cons f fs ih =>
    by_cases constant : ∃ b, f = .const b
    · obtain ⟨b, rfl⟩ := constant
      rw [List.map_cons, Formula.map, flatten?, flatten?, ih]
      split <;> rfl
    · have plain : ∀ b, f ≠ .const b := fun b same => constant ⟨b, same⟩
      have image : ∀ b, f.map E ≠ .const b := fun b same =>
        plain b ((map_inj E).1 (same.trans rfl))
      rw [List.map_cons, flatten?_cons_of_ne j image, flatten?_cons_of_ne j plain, ih, parts?_map]
      cases j.parts? f <;> cases j.flatten? fs <;> simp

theorem isComplementary_map (fs : List Formula) :
    isComplementary (fs.map (Formula.map E)) = isComplementary fs := by
  rw [isComplementary, isComplementary, List.any_map]
  refine congrArg (List.any fs) (funext fun f => ?_)
  cases f with
  | not g => exact decide_eq_decide.2 (mem_map_iff E)
  | _ => rfl

theorem absorb_map (fs : List Formula) :
    j.absorb (fs.map (Formula.map E)) = (j.absorb fs).map (Formula.map E) := by
  rw [absorb, absorb, List.filter_map]
  refine congrArg _ (List.filter_congr fun f _ => ?_)
  rw [Function.comp_apply, dualParts?_map]
  cases j.dualParts? f with
  | none => rfl
  | some gs => simp [List.any_map, mem_map_iff, Function.comp_def, -List.mem_map]

theorem constraints_map (fs : List Formula) :
    constraints (fs.map (Formula.map E)) = (constraints fs).map (Constraint.map E) := by
  rw [constraints, constraints, List.filterMap_map, List.map_filterMap]
  refine congrArg (List.filterMap · fs) (funext fun f => ?_)
  cases f <;> rfl

theorem others_map (fs : List Formula) :
    others (fs.map (Formula.map E)) = (others fs).map (Formula.map E) := by
  rw [others, others, List.filter_map]
  refine congrArg _ (List.filter_congr fun f _ => ?_)
  cases f <;> rfl

theorem group_map (cs : List Constraint) :
    group (cs.map (Constraint.map E)) = (group cs).map fun g => (E.poly g.1, g.2) := by
  induction cs with
  | nil => rfl
  | cons c cs ih =>
    rw [List.map_cons, group, group, ih]
    rcases group cs with _ | ⟨⟨p, bs⟩, rest⟩
    · rfl
    · simp only [List.map_cons, Constraint.map, E.poly_inj]
      split <;> rfl

theorem mergeGroups?_map (gs : List (Poly × List Bound)) :
    j.mergeGroups? d (gs.map fun g => (E.poly g.1, g.2)) =
      (j.mergeGroups? d gs).map (List.map (Formula.map E)) := by
  induction gs with
  | nil => rfl
  | cons g gs ih =>
    obtain ⟨p, bs⟩ := g
    have own : j.mergeGroup? d (E.poly p) bs =
        (j.mergeGroup? d p bs).map (List.map (Formula.map E)) := by
      rw [mergeGroup?, mergeGroup?, E.isNonneg_poly]
      split
      · split <;> rfl
      · split <;> rfl
      · simp [Formula.map, Constraint.map]
    rw [List.map_cons, mergeGroups?_cons, mergeGroups?_cons, ih, own]
    cases j.mergeGroup? d p bs <;> cases j.mergeGroups? d gs <;> simp

theorem ofOperands_map (fs : List Formula) :
    j.ofOperands (fs.map (Formula.map E)) = (j.ofOperands fs).map E := by
  match fs with
  | [] => rfl
  | [f] => rfl
  | f :: g :: fs => exact join_map E j (f :: g :: fs)

theorem combine_map (parts : List Formula) :
    j.combine d (parts.map (Formula.map E)) = (j.combine d parts).map E := by
  rw [combine, combine, flatten?_map]
  cases j.flatten? parts with
  | none => rfl
  | some flat =>
    simp only [Option.map_some, Sorting.sortDistinct_map (cmp_map E), isComplementary_map]
    split
    · rfl
    · rw [absorb_map, constraints_map, group_map, mergeGroups?_map]
      cases j.mergeGroups? d _ with
      | none => rfl
      | some merged =>
        simp only [Option.map_some]
        rw [others_map, ← List.map_append, Sorting.sort_map fun f _ g _ => cmp_map E f g,
          ofOperands_map]

end Junction

namespace Formula

mutual
theorem step_map : ∀ f : Formula, (f.map E).step d = (f.step d).map E
  | .const _ => rfl
  | .prop _ => rfl
  | .constraint c => by
    rw [map, step, step, c.decide?_map]
    cases c.decide? d <;> rfl
  | .not f => by rw [map, step, step, step_map f, negate_map]
  | .and fs => by rw [map, step, step, stepAll_mapAll fs, mapAll_eq_map, Junction.combine_map]
  | .or fs => by rw [map, step, step, stepAll_mapAll fs, mapAll_eq_map, Junction.combine_map]

theorem stepAll_mapAll : ∀ fs : List Formula, stepAll d (mapAll E fs) = mapAll E (stepAll d fs)
  | [] => rfl
  | f :: fs => by rw [mapAll, stepAll, stepAll, mapAll, step_map f, stepAll_mapAll fs]
end

theorem steps_map (n : Nat) (f : Formula) : (f.map E).steps d n = (f.steps d n).map E := by
  induction n generalizing f with
  | zero => rfl
  | succ n ih =>
    simp only [steps, step_map, map_inj, ih]
    split <;> rfl

/-- Simplification does not see what atoms and polynomials are. -/
theorem simplify_map (f : Formula) : (f.map E).simplify d = (f.simplify d).map E :=
  steps_map E maxRounds f

end Formula

namespace Nnf

mutual
/-- The normal form with its atoms and polynomials replaced. -/
def map : Nnf → Nnf
  | .const b => .const b
  | .literal a value => .literal (E.atom a) value
  | .constraint c => .constraint (c.map E)
  | .all fs => .all (mapAll fs)
  | .any fs => .any (mapAll fs)

def mapAll : List Nnf → List Nnf
  | [] => []
  | f :: fs => f.map :: mapAll fs
end

theorem mapAll_eq_map (fs : List Nnf) : mapAll E fs = fs.map (map E) := by
  induction fs with
  | nil => rfl
  | cons f fs ih => rw [mapAll, ih, List.map_cons]

theorem anyConstraint_map (cs : List Constraint) :
    anyConstraint (cs.map (Constraint.map E)) = (anyConstraint cs).map E := by
  match cs with
  | [] => rfl
  | [c] => rfl
  | c :: e :: cs => simp [anyConstraint, map, mapAll_eq_map, Function.comp_def]

mutual
theorem ofFormula_map (positive : Bool) : ∀ f : Formula,
    ofFormula positive (f.map E) = (ofFormula positive f).map E
  | .const _ => rfl
  | .prop _ => rfl
  | .constraint c => by
    have complement : (c.map E).complement = c.complement.map (Constraint.map E) := by
      rw [Constraint.complement, Constraint.complement, List.map_map]
      rfl
    rw [Formula.map, ofFormula, ofFormula, complement, anyConstraint_map]
    split <;> rfl
  | .not f => by rw [Formula.map, ofFormula, ofFormula, ofFormula_map (!positive) f]
  | .and fs => by
    rw [Formula.map, ofFormula, ofFormula, ofFormulas_mapAll positive fs]
    split <;> rfl
  | .or fs => by
    rw [Formula.map, ofFormula, ofFormula, ofFormulas_mapAll positive fs]
    split <;> rfl

theorem ofFormulas_mapAll (positive : Bool) : ∀ fs : List Formula,
    ofFormulas positive (Formula.mapAll E fs) = mapAll E (ofFormulas positive fs)
  | [] => rfl
  | f :: fs => by
    rw [Formula.mapAll, ofFormulas, ofFormulas, mapAll, ofFormula_map positive f,
      ofFormulas_mapAll positive fs]
end

end Nnf
end PredicateStrength
