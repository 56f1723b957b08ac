import Mathlib
import PredicateStrength.Poly.Arithmetic

/-!
# The value of a polynomial at integer values of its atoms

Main statements: each operation on polynomials is the operation on their values (`value_add`,
`value_sub`, `value_mul`, `value_scale`, `value_pow`). None of them asks for terms or factors in
order. What is linear holds as well where every monomial has a value of its own (`valueAt_add`,
`valueAt_sub`, `valueAt_scale`).
-/
namespace PredicateStrength

variable (v : Atom → Int)

/-- The product of the factors. -/
def Monomial.value (m : Monomial) : Int :=
  (m.factors.map fun f => v f.atom ^ f.exponent).prod

/-- The sum of some terms. -/
def Term.sum (ts : List Term) : Rat :=
  (ts.map fun t => t.coeff * (t.monomial.value v : Rat)).sum

/-- The sum of the terms. -/
def Poly.value (p : Poly) : Rat := Term.sum v p.terms

/-- The sum of some terms, where each monomial has a value of its own. -/
def Term.sumAt (w : Monomial → Rat) (ts : List Term) : Rat :=
  (ts.map fun t => t.coeff * w t.monomial).sum

/-- The sum of the terms, where each monomial has a value of its own. -/
def Poly.valueAt (w : Monomial → Rat) (p : Poly) : Rat := Term.sumAt w p.terms

namespace Monomial

@[simp] theorem value_unit : unit.value v = 1 := rfl

@[simp] theorem value_ofAtom (a : Atom) : (ofAtom a).value v = v a := by simp [ofAtom, value]

theorem value_of_isUnit {m : Monomial} (unit : m.isUnit = true) : m.value v = 1 := by
  have empty : m.factors = [] := by simpa [isUnit] using unit
  simp [value, empty]

theorem prod_mulFactor (a : Atom) (n : Nat) (fs : List Factor) :
    ((mulFactor a n fs).map fun f => v f.atom ^ f.exponent).prod =
      v a ^ n * (fs.map fun f => v f.atom ^ f.exponent).prod := by
  induction fs with
  | nil => simp [mulFactor]
  | cons f fs ih =>
    rw [mulFactor]
    split
    · simp
    · next same =>
      rw [(Atom.cmp_eq_iff _ _).1 same]
      simp only [List.map_cons, List.prod_cons, pow_add]
      ring
    · simp only [List.map_cons, List.prod_cons, ih]
      ring

@[simp] theorem value_mul (m n : Monomial) : (m * n).value v = m.value v * n.value v := by
  show ((n.factors.foldr (fun f fs => mulFactor f.atom f.exponent fs) m.factors).map _).prod = _
  rw [value, value]
  generalize n.factors = fs
  induction fs with
  | nil => simp
  | cons f fs ih =>
    rw [List.foldr_cons, prod_mulFactor, ih, List.map_cons, List.prod_cons]
    ring

end Monomial

section

variable (w : Monomial → Rat)

@[simp] theorem Term.sumAt_nil : Term.sumAt w [] = 0 := rfl

@[simp] theorem Term.sumAt_cons (t : Term) (ts : List Term) :
    Term.sumAt w (t :: ts) = t.coeff * w t.monomial + Term.sumAt w ts := by
  simp [Term.sumAt]

namespace Poly

@[simp] theorem valueAt_ofAtom (a : Atom) : (ofAtom a).valueAt w = w (.ofAtom a) := by
  simp [ofAtom, valueAt]

theorem valueAt_const (unit : w .unit = 1) (q : Rat) : (const q).valueAt w = q := by
  rw [const]
  split
  · next h => simp [h, valueAt, zero]
  · simp [valueAt, unit]

theorem sumAt_addTerm (m : Monomial) (c : Rat) (ts : List Term) :
    Term.sumAt w (addTerm m c ts) = c * w m + Term.sumAt w ts := by
  induction ts with
  | nil =>
    rw [addTerm]
    split
    · next h => simp [h]
    · simp
  | cons t ts ih =>
    rw [addTerm]
    split
    · split
      · next h => simp [h]
      · simp
    · next same =>
      rw [(Monomial.cmp_eq_iff _ _).1 same]
      split
      · next h =>
        -- the two coefficients cancel, so both terms vanish from the sum
        have cancel : c = -t.coeff := by linarith
        rw [Term.sumAt_cons, cancel]
        ring
      · simp only [Term.sumAt_cons]
        ring
    · simp only [Term.sumAt_cons, ih]
      ring

theorem valueAt_add (p q : Poly) : (p + q).valueAt w = p.valueAt w + q.valueAt w := by
  show Term.sumAt w (q.terms.foldr (fun t ts => addTerm t.monomial t.coeff ts) p.terms) = _
  rw [valueAt, valueAt]
  generalize q.terms = us
  induction us with
  | nil => simp
  | cons t us ih =>
    rw [List.foldr_cons, sumAt_addTerm, ih, Term.sumAt_cons]
    ring

theorem valueAt_scale (k : Rat) (p : Poly) : (p.scale k).valueAt w = k * p.valueAt w := by
  rw [scale]
  split
  · next h => simp [h, valueAt, zero]
  · rw [valueAt, valueAt]
    generalize p.terms = ts
    induction ts with
    | nil => simp
    | cons t ts ih =>
      rw [List.map_cons, Term.sumAt_cons, Term.sumAt_cons, ih]
      ring

theorem valueAt_sub (p q : Poly) : (p - q).valueAt w = p.valueAt w - q.valueAt w := by
  show (p + q.scale (-1)).valueAt w = _
  rw [valueAt_add, valueAt_scale]
  ring

end Poly

end

namespace Term

@[simp] theorem sum_nil : sum v [] = 0 := rfl

@[simp] theorem sum_cons (t : Term) (ts : List Term) :
    sum v (t :: ts) = t.coeff * (t.monomial.value v : Rat) + sum v ts := by
  simp [sum]

end Term

namespace Poly

@[simp] theorem value_zero : zero.value v = 0 := rfl

@[simp] theorem value_const (q : Rat) : (const q).value v = q :=
  valueAt_const (fun m => (m.value v : Rat)) (by simp) q

@[simp] theorem value_ofAtom (a : Atom) : (ofAtom a).value v = v a := by simp [ofAtom, value]

theorem sum_addTerm (m : Monomial) (c : Rat) (ts : List Term) :
    Term.sum v (addTerm m c ts) = c * (m.value v : Rat) + Term.sum v ts :=
  sumAt_addTerm (fun m => (m.value v : Rat)) m c ts

@[simp] theorem value_add (p q : Poly) : (p + q).value v = p.value v + q.value v :=
  valueAt_add (fun m => (m.value v : Rat)) p q

@[simp] theorem value_scale (k : Rat) (p : Poly) : (p.scale k).value v = k * p.value v :=
  valueAt_scale (fun m => (m.value v : Rat)) k p

@[simp] theorem value_neg (p : Poly) : (-p).value v = -p.value v := by
  show (p.scale (-1)).value v = _
  rw [value_scale]
  ring

@[simp] theorem value_sub (p q : Poly) : (p - q).value v = p.value v - q.value v := by
  show (p + -q).value v = _
  rw [value_add, value_neg]
  ring

theorem value_mulTerm (p : Poly) (t : Term) :
    (p.mulTerm t).value v = p.value v * (t.coeff * (t.monomial.value v : Rat)) := by
  rw [mulTerm, value, value]
  generalize p.terms = us
  induction us with
  | nil => simp
  | cons u us ih =>
    rw [List.foldr_cons, sum_addTerm, ih, Term.sum_cons, Monomial.value_mul]
    push_cast
    ring

@[simp] theorem value_mul (p q : Poly) : (p * q).value v = p.value v * q.value v := by
  show (q.terms.foldr (fun t r => r + p.mulTerm t) zero).value v = p.value v * Term.sum v q.terms
  generalize q.terms = us
  induction us with
  | nil => simp
  | cons t us ih =>
    rw [List.foldr_cons, value_add, ih, value_mulTerm, Term.sum_cons]
    ring

theorem value_of_constant? {p : Poly} {q : Rat} (h : p.constant? = some q) : p.value v = q := by
  unfold constant? at h
  split at h
  · next empty => simpa [value, empty] using h
  · next t single =>
    split at h
    · next unit =>
      have same : t.coeff = q := by simpa using h
      simp [value, single, Monomial.value_of_isUnit v unit, same]
    · cases h
  · cases h

theorem value_of_integer? {p : Poly} {n : Int} (h : p.integer? = some n) : p.value v = n := by
  obtain ⟨q, constant, integer⟩ := Option.bind_eq_some_iff.1 h
  rw [value_of_constant? v constant]
  split at integer
  · next den =>
    have same : q.num = n := by simpa using integer
    rw [← same]
    exact ((Rat.den_eq_one_iff q).1 den).symm
  · cases integer

@[simp] theorem value_pow (p : Poly) (n : Nat) : (p.pow n).value v = p.value v ^ n := by
  induction n with
  | zero => simp [pow]
  | succ n ih => rw [pow, value_mul, ih, pow_succ]

end Poly
end PredicateStrength
