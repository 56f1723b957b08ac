import Mathlib
import PredicateStrength.Proofs.Poly.WellFormed
import PredicateStrength.Formula.Constraint

/-!
# Truth of formulas

A valuation gives truth values to atoms that are used as propositions and integers to atoms that
are used in polynomials. An admissible one gives quotients and remainders the values that division
rounded toward zero has, with `x / 0 = 0` and `x % 0 = x`; in the unsigned domain it gives no
negative value to a name, to an application, or to a kept tree that cannot be negative.

Main statement: where `isNonneg` says so, the value is at least zero (`Poly.value_nonneg`).
-/
namespace PredicateStrength

structure Valuation where
  truth : Atom → Bool
  number : Atom → Int

/-- The value of a polynomial. -/
def Valuation.value (V : Valuation) (p : Poly) : Rat := p.value V.number

structure Valuation.Admissible (V : Valuation) (d : Domain) : Prop where
  quot : ∀ (p q : Poly) (m n : Int), V.value p = m → V.value q = n →
    V.number (.quot p q) = m.tdiv n
  rem : ∀ (p q : Poly) (m n : Int), V.value p = m → V.value q = n →
    V.number (.rem p q) = m.tmod n
  symbol : d = .unsigned → ∀ name, 0 ≤ V.number (.symbol name)
  app : d = .unsigned → ∀ head args, 0 ≤ V.number (.app head args)
  verbatim : d = .unsigned → ∀ e : Expr, e.mayBeNegative = false → 0 ≤ V.number (.verbatim e)

/-- The bound leaves the value. -/
def Bound.Admits : Bound → Rat → Prop
  | .range lo hi, x => (∀ l ∈ lo, (l : Rat) ≤ x) ∧ ∀ h ∈ hi, x ≤ (h : Rat)
  | .ne w, x => x ≠ (w : Rat)

def Constraint.Holds (V : Valuation) (c : Constraint) : Prop := c.bound.Admits (V.value c.poly)

namespace Formula

mutual
/-- The formula is true. -/
def Holds (V : Valuation) : Formula → Prop
  | .const b => b = true
  | .prop a => V.truth a = true
  | .constraint c => c.Holds V
  | .not f => ¬f.Holds V
  | .and fs => HoldAll V fs
  | .or fs => HoldSome V fs

def HoldAll (V : Valuation) : List Formula → Prop
  | [] => True
  | f :: fs => f.Holds V ∧ HoldAll V fs

def HoldSome (V : Valuation) : List Formula → Prop
  | [] => False
  | f :: fs => f.Holds V ∨ HoldSome V fs
end

theorem holdAll_iff {V : Valuation} {fs : List Formula} : HoldAll V fs ↔ ∀ f ∈ fs, f.Holds V := by
  induction fs with
  | nil => simp [HoldAll]
  | cons f fs ih => simp [HoldAll, ih]

theorem holdSome_iff {V : Valuation} {fs : List Formula} :
    HoldSome V fs ↔ ∃ f ∈ fs, f.Holds V := by
  induction fs with
  | nil => simp [HoldSome]
  | cons f fs ih => simp [HoldSome, ih]

mutual
/-- `Q` holds of the atom of every proposition and `P` of the polynomial of every constraint. -/
def Leaves (Q : Atom → Prop) (P : Poly → Prop) : Formula → Prop
  | .const _ => True
  | .prop a => Q a
  | .constraint c => P c.poly
  | .not f => f.Leaves Q P
  | .and fs => LeavesAll Q P fs
  | .or fs => LeavesAll Q P fs

def LeavesAll (Q : Atom → Prop) (P : Poly → Prop) : List Formula → Prop
  | [] => True
  | f :: fs => f.Leaves Q P ∧ LeavesAll Q P fs
end

theorem leavesAll_iff {Q : Atom → Prop} {P : Poly → Prop} {fs : List Formula} :
    LeavesAll Q P fs ↔ ∀ f ∈ fs, f.Leaves Q P := by
  induction fs with
  | nil => simp [LeavesAll]
  | cons f fs ih => simp [LeavesAll, ih]

mutual
/-- `P` holds of the polynomial of every constraint. -/
def Over (P : Poly → Prop) : Formula → Prop
  | .const _ => True
  | .prop _ => True
  | .constraint c => P c.poly
  | .not f => f.Over P
  | .and fs => OverAll P fs
  | .or fs => OverAll P fs

def OverAll (P : Poly → Prop) : List Formula → Prop
  | [] => True
  | f :: fs => f.Over P ∧ OverAll P fs
end

theorem overAll_iff {P : Poly → Prop} {fs : List Formula} :
    OverAll P fs ↔ ∀ f ∈ fs, f.Over P := by
  induction fs with
  | nil => simp [OverAll]
  | cons f fs ih => simp [OverAll, ih]

mutual
theorem over_iff_leaves {P : Poly → Prop} : ∀ {f : Formula},
    f.Over P ↔ f.Leaves (fun _ => True) P
  | .const _ => Iff.rfl
  | .prop _ => Iff.rfl
  | .constraint _ => Iff.rfl
  | .not f => over_iff_leaves (f := f)
  | .and _ => overAll_iff_leavesAll
  | .or _ => overAll_iff_leavesAll

theorem overAll_iff_leavesAll {P : Poly → Prop} : ∀ {fs : List Formula},
    OverAll P fs ↔ LeavesAll (fun _ => True) P fs
  | [] => Iff.rfl
  | _ :: _ => and_congr over_iff_leaves overAll_iff_leavesAll
end

mutual
theorem over_and {P Q : Poly → Prop} : ∀ {f : Formula}, f.Over P → f.Over Q →
    f.Over fun p => P p ∧ Q p
  | .const _, _, _ => trivial
  | .prop _, _, _ => trivial
  | .constraint _, hp, hq => ⟨hp, hq⟩
  | .not f, hp, hq => over_and (f := f) hp hq
  | .and _, hp, hq => overAll_and hp hq
  | .or _, hp, hq => overAll_and hp hq

theorem overAll_and {P Q : Poly → Prop} : ∀ {fs : List Formula}, OverAll P fs → OverAll Q fs →
    OverAll (fun p => P p ∧ Q p) fs
  | [], _, _ => trivial
  | _ :: _, hp, hq => ⟨over_and hp.1 hq.1, overAll_and hp.2 hq.2⟩
end

mutual
theorem leaves_mono {Q : Atom → Prop} {P P' : Poly → Prop} (h : ∀ p, P p → P' p) :
    ∀ {f : Formula}, f.Leaves Q P → f.Leaves Q P'
  | .const _, _ => trivial
  | .prop _, every => every
  | .constraint c, every => h c.poly every
  | .not f, every => leaves_mono h (f := f) every
  | .and _, every => leavesAll_mono h every
  | .or _, every => leavesAll_mono h every

theorem leavesAll_mono {Q : Atom → Prop} {P P' : Poly → Prop} (h : ∀ p, P p → P' p) :
    ∀ {fs : List Formula}, LeavesAll Q P fs → LeavesAll Q P' fs
  | [], _ => trivial
  | _ :: _, every => ⟨leaves_mono h every.1, leavesAll_mono h every.2⟩
end

theorem over_mono {P P' : Poly → Prop} (h : ∀ p, P p → P' p) {f : Formula} (every : f.Over P) :
    f.Over P' :=
  over_iff_leaves.2 (leaves_mono h (over_iff_leaves.1 every))

/-- The polynomials of all constraints are well formed. -/
def WellFormed (f : Formula) : Prop := f.Over Poly.WellFormed

/-- The polynomials of all constraints have integer coefficients, also inside atoms. -/
def Integral (f : Formula) : Prop := f.Over Poly.Integral

end Formula

variable {V : Valuation}

namespace Valuation

@[simp] theorem value_const (q : Rat) : V.value (.const q) = q := Poly.value_const _ q

@[simp] theorem value_ofAtom (a : Atom) : V.value (.ofAtom a) = V.number a :=
  Poly.value_ofAtom _ a

@[simp] theorem value_add (p q : Poly) : V.value (p + q) = V.value p + V.value q :=
  Poly.value_add _ p q

@[simp] theorem value_sub (p q : Poly) : V.value (p - q) = V.value p - V.value q :=
  Poly.value_sub _ p q

@[simp] theorem value_scale (k : Rat) (p : Poly) : V.value (p.scale k) = k * V.value p :=
  Poly.value_scale _ k p

theorem value_of_integer? {p : Poly} {n : Int} (h : p.integer? = some n) : V.value p = n :=
  Poly.value_of_integer? _ h

end Valuation

/-- What is known to be at least zero is so if its atoms are. -/
theorem Poly.value_nonneg_of_atoms (atoms : ∀ a : Atom, a.isNonneg = true → 0 ≤ V.number a)
    {p : Poly} (nonneg : p.isNonneg = true) : 0 ≤ V.value p := by
  have factors : ∀ fs : List Factor, Factor.allNonneg fs = true →
      0 ≤ (fs.map fun f => V.number f.atom ^ f.exponent).prod := by
    intro fs
    induction fs with
    | nil => simp
    | cons f fs ih =>
      obtain ⟨a, n⟩ := f
      rw [Factor.allNonneg, Bool.and_eq_true, Bool.or_eq_true, List.map_cons, List.prod_cons]
      rintro ⟨even | base, rest⟩
      · exact mul_nonneg ((Nat.even_iff.2 (by simpa using even)).pow_nonneg _) (ih rest)
      · exact mul_nonneg (pow_nonneg (atoms a base) n) (ih rest)
  obtain ⟨ts⟩ := p
  show 0 ≤ Term.sum V.number ts
  change Term.allNonneg ts = true at nonneg
  induction ts with
  | nil => exact le_refl _
  | cons t ts ih =>
    obtain ⟨⟨fs⟩, c⟩ := t
    simp only [Term.allNonneg, Monomial.isNonneg, Bool.and_eq_true, decide_eq_true_eq] at nonneg
    have monomial : (0 : Rat) ≤ ((Monomial.mk fs).value V.number : Int) := by
      exact_mod_cast factors fs nonneg.1.2
    rw [Term.sum_cons]
    exact add_nonneg (mul_nonneg nonneg.1.1 monomial) (ih nonneg.2)

mutual
theorem Atom.number_nonneg (adm : V.Admissible .unsigned) : ∀ {a : Atom},
    a.isNonneg = true → a.Everywhere Poly.IntegerCoeffs → 0 ≤ V.number a
  | .symbol name, _, _ => adm.symbol rfl name
  | .app head args, _, _ => adm.app rfl head args
  | .quot p q, nonneg, ints => by
    rw [Atom.isNonneg, Bool.and_eq_true] at nonneg
    obtain ⟨m, hm⟩ := ints.1.here.value_eq_int V.number
    obtain ⟨n, hn⟩ := ints.2.here.value_eq_int V.number
    have hp := Poly.value_nonneg adm nonneg.1 ints.1
    have hq := Poly.value_nonneg adm nonneg.2 ints.2
    rw [adm.quot p q m n hm hn]
    rw [Valuation.value, hm, Int.cast_nonneg_iff] at hp
    rw [Valuation.value, hn, Int.cast_nonneg_iff] at hq
    exact Int.tdiv_nonneg hp hq
  | .rem p q, nonneg, ints => by
    rw [Atom.isNonneg] at nonneg
    obtain ⟨m, hm⟩ := ints.1.here.value_eq_int V.number
    obtain ⟨n, hn⟩ := ints.2.here.value_eq_int V.number
    have hp := Poly.value_nonneg adm nonneg ints.1
    rw [adm.rem p q m n hm hn]
    rw [Valuation.value, hm, Int.cast_nonneg_iff] at hp
    exact Int.tmod_nonneg n hp
  | .verbatim e, nonneg, _ => adm.verbatim rfl e (by simpa [Atom.isNonneg] using nonneg)

theorem Factor.prod_nonneg (adm : V.Admissible .unsigned) : ∀ {fs : List Factor},
    Factor.allNonneg fs = true → Factor.EverywhereAll Poly.IntegerCoeffs fs →
      0 ≤ (fs.map fun f => V.number f.atom ^ f.exponent).prod
  | [], _, _ => by simp
  | ⟨a, n⟩ :: fs, nonneg, ints => by
    rw [Factor.allNonneg, Bool.and_eq_true, Bool.or_eq_true] at nonneg
    rw [List.map_cons, List.prod_cons]
    refine mul_nonneg ?_ (Factor.prod_nonneg adm nonneg.2 ints.2)
    rcases nonneg.1 with even | base
    · exact (Nat.even_iff.2 (by simpa using even)).pow_nonneg _
    · exact pow_nonneg (Atom.number_nonneg adm base ints.1) n

theorem Monomial.value_nonneg (adm : V.Admissible .unsigned) : ∀ {m : Monomial},
    m.isNonneg = true → m.Everywhere Poly.IntegerCoeffs → 0 ≤ m.value V.number
  | ⟨_⟩, nonneg, ints => Factor.prod_nonneg adm nonneg ints

theorem Term.sum_nonneg (adm : V.Admissible .unsigned) : ∀ {ts : List Term},
    Term.allNonneg ts = true → Term.EverywhereAll Poly.IntegerCoeffs ts →
      0 ≤ Term.sum V.number ts
  | [], _, _ => le_refl _
  | ⟨m, c⟩ :: ts, nonneg, ints => by
    simp only [Term.allNonneg, Bool.and_eq_true, decide_eq_true_eq] at nonneg
    rw [Term.sum_cons]
    have monomial := Monomial.value_nonneg adm nonneg.1.2 ints.1
    have rest := Term.sum_nonneg adm nonneg.2 ints.2
    exact add_nonneg (mul_nonneg nonneg.1.1 (by exact_mod_cast monomial)) rest

/-- What is known to be at least zero is so under every admissible valuation. -/
theorem Poly.value_nonneg (adm : V.Admissible .unsigned) : ∀ {p : Poly},
    p.isNonneg = true → p.Integral → 0 ≤ V.value p
  | ⟨_⟩, nonneg, ints => Term.sum_nonneg adm nonneg ints.2
end

end PredicateStrength
