import Mathlib
import PredicateStrength.Proofs.Formula.Constraint
import PredicateStrength.Proofs.Formula.Meaning

/-!
# Well-sorted formulas

A formula does not say which sort its names have, and an interpretation may read a truth value
where the formula counts with a number. The truth value then counts as zero or one, but what an
application makes of it need not be what it makes of that number. A formula is well sorted under an
interpretation if nothing of that kind happens: it counts with numbers only, and it hands truth
values on to applications or compares two of them.

Main statements: under such an interpretation an application is a function of the sorts and values
of its arguments (`Atom.meaning_app_congr`), and the constraint of a comparison of two numbers or
of two truth values is well sorted (`Constraint.sorted_ofComparison`).
-/
namespace PredicateStrength

variable {I : Interp Int}

/-- Every atom of the polynomial stands for a number. -/
def Poly.IsNumeric (I : Interp Int) (p : Poly) : Prop := ∀ a ∈ p.atoms, (a.meaning I).isNum = true

/-- The polynomial is an atom that stands for a truth value. -/
def Poly.IsTruthValue (I : Interp Int) (p : Poly) : Prop :=
  ∃ a, (a.meaning I).isBool = true ∧ p = .ofAtom a

/-- Everything inside the atom is used as what it stands for: quotients and remainders are of
numbers, an argument is a number or a truth value, and a kept tree has a value. -/
inductive Atom.Sorted (I : Interp Int) : Atom → Prop
  | symbol (name : String) : Sorted I (.symbol name)
  | app {head : Head} {args : List Poly}
    (arguments : ∀ p ∈ args, p.IsNumeric I ∨ p.IsTruthValue I)
    (inside : ∀ p ∈ args, ∀ a ∈ p.atoms, Sorted I a) : Sorted I (.app head args)
  | quot {p q : Poly} (left : p.IsNumeric I) (right : q.IsNumeric I)
    (inside : ∀ a ∈ p.atoms ++ q.atoms, Sorted I a) : Sorted I (.quot p q)
  | rem {p q : Poly} (left : p.IsNumeric I) (right : q.IsNumeric I)
    (inside : ∀ a ∈ p.atoms ++ q.atoms, Sorted I a) : Sorted I (.rem p q)
  | verbatim {e : Expr} {v : Value Int} (value : I.value? e = some v) : Sorted I (.verbatim e)

/-- The polynomial counts with numbers, or it is a multiple of the difference of two truth
values. -/
structure Poly.Sorted (I : Interp Int) (p : Poly) : Prop where
  atoms : ∀ a ∈ p.atoms, a.Sorted I
  counts : p.IsNumeric I ∨ ∃ q r : Poly, ∃ k : Rat,
    q.IsTruthValue I ∧ r.IsTruthValue I ∧ p = (q - r).scale k

/-- Propositions stand for truth values, and the polynomials of constraints are well sorted. -/
def Formula.Sorted (I : Interp Int) (f : Formula) : Prop :=
  f.Leaves (fun a => a.Sorted I ∧ (a.meaning I).isBool = true) (Poly.Sorted I)

namespace Poly

variable {p q : Poly}

/-- Both polynomials are numbers, or both are truth values. -/
def SameSort (I : Interp Int) (p q : Poly) : Prop :=
  p.IsNumeric I ∧ q.IsNumeric I ∨ p.IsTruthValue I ∧ q.IsTruthValue I

/-- The polynomial is of the sort. -/
def HasSort (I : Interp Int) (p : Poly) : ValueSort → Prop
  | .integer => p.IsNumeric I
  | .boolean => p.IsTruthValue I

theorem HasSort.isArgument {s : ValueSort} (h : p.HasSort I s) :
    p.IsNumeric I ∨ p.IsTruthValue I := by
  cases s with
  | integer => exact .inl h
  | boolean => exact .inr h

theorem HasSort.sameSort {s : ValueSort} (hp : p.HasSort I s) (hq : q.HasSort I s) :
    SameSort I p q := by
  cases s with
  | integer => exact .inl ⟨hp, hq⟩
  | boolean => exact .inr ⟨hp, hq⟩

theorem value_evaluate_of_isNumeric (numeric : p.IsNumeric I) :
    (p.evaluate I).value = .num (I.valuation.value p).floor := by
  refine value_evaluate fun a same => numeric a ?_
  rw [same, atoms_ofAtom]
  exact List.mem_singleton_self a

/-- Arguments of one sort with one value are one argument. -/
theorem value_evaluate_congr (sort : SameSort I p q)
    (same : I.valuation.value p = I.valuation.value q) :
    (p.evaluate I).value = (q.evaluate I).value := by
  rcases sort with ⟨hp, hq⟩ | ⟨⟨a, ha, rfl⟩, ⟨b, hb, rfl⟩⟩
  · rw [value_evaluate_of_isNumeric hp, value_evaluate_of_isNumeric hq, same]
  · obtain ⟨s, atA⟩ := Value.isBool_iff_exists.1 ha
    obtain ⟨t, atB⟩ := Value.isBool_iff_exists.1 hb
    rw [Valuation.value_ofAtom, Valuation.value_ofAtom, Int.cast_inj] at same
    change (a.meaning I).number = (b.meaning I).number at same
    rw [value_evaluate_ofAtom, value_evaluate_ofAtom]
    rw [atA, atB] at same ⊢
    cases s <;> cases t <;> first | rfl | cases same

theorem withoutConstant_eq_self (h : ∀ m ∈ p.monomials, m.isUnit = false) :
    p.withoutConstant = p := by
  obtain ⟨ts⟩ := p
  refine congrArg Poly.mk (List.filter_eq_self.2 fun t ht => ?_)
  rw [h t.monomial (List.mem_map_of_mem ht), Bool.not_false]

theorem withoutConstant_ofAtom_sub (a b : Atom) :
    (ofAtom a - ofAtom b).withoutConstant = ofAtom a - ofAtom b := by
  refine withoutConstant_eq_self fun m hm => ?_
  rcases mem_monomials_sub hm with mem | mem <;> cases List.mem_singleton.1 mem <;> rfl

end Poly

/-- An application is a function of the sorts and the values of its arguments. -/
theorem Atom.meaning_app_congr {head : Head} {ps qs : List Poly}
    (same : List.Forall₂ (fun p q => p.SameSort I q ∧ I.valuation.value p = I.valuation.value q)
      ps qs) : (Atom.app head ps).meaning I = (Atom.app head qs).meaning I := by
  have arguments : (Poly.evaluateAll I ps).map Evaluated.value =
      (Poly.evaluateAll I qs).map Evaluated.value := by
    induction same with
    | nil => rfl
    | cons first _ ih =>
      rw [Poly.evaluateAll, Poly.evaluateAll, List.map_cons, List.map_cons, ih,
        Poly.value_evaluate_congr first.1 first.2]
  rw [Atom.meaning, Atom.meaning, arguments]

/-- Comparing two numbers or two truth values makes a well-sorted constraint. -/
theorem Constraint.sorted_ofComparison {o : Operator} {p q : Poly} (hp : p.Ordered)
    (hq : q.Ordered) (sort : p.SameSort I q)
    (sorted : ∀ a, a ∈ p.atoms ∨ a ∈ q.atoms → a.Sorted I) : (ofComparison o p q).Sorted I := by
  refine leaves_ofComparison hp hq fun k _ => ?_
  have atoms : ∀ a ∈ ((p - q).withoutConstant.scale k).atoms, a ∈ p.atoms ∨ a ∈ q.atoms :=
    fun a ha => Poly.atoms_sub (Poly.atoms_withoutConstant (Poly.atoms_scale ha))
  refine ⟨fun a ha => sorted a (atoms a ha), ?_⟩
  rcases sort with ⟨left, right⟩ | ⟨⟨a, ha, rfl⟩, ⟨b, hb, rfl⟩⟩
  · exact .inl fun a ha => (atoms a ha).elim (left a) (right a)
  · exact .inr ⟨_, _, k, ⟨a, ha, rfl⟩, ⟨b, hb, rfl⟩, by rw [Poly.withoutConstant_ofAtom_sub]⟩

end PredicateStrength
