import Mathlib
import PredicateStrength.Proofs.Poly.Content

/-!
# Degrees of polynomials

The degree of a monomial is the sum of its exponents, so no exponent is above it, and it adds up in
a product. So products and powers fit their words as long as the degrees do.

Main statements: `Poly.mulFits_of_degree` and `Poly.pow?_of_degree`.
-/
namespace PredicateStrength

namespace Monomial

variable {m n : Monomial}

def totalDegree (m : Monomial) : Nat := (m.factors.map Factor.exponent).sum

theorem exponent_le_totalDegree {f : Factor} (mem : f ∈ m.factors) :
    f.exponent ≤ m.totalDegree :=
  List.le_sum_of_mem (List.mem_map_of_mem mem)

theorem exponent_atom_le_totalDegree (m : Monomial) (a : Atom) : m.exponent a ≤ m.totalDegree := by
  rw [exponent]
  cases found : m.factors.find? (·.atom = a) with
  | none => exact Nat.zero_le _
  | some f => exact exponent_le_totalDegree (List.mem_of_find?_eq_some found)

theorem sum_mulFactor (a : Atom) (n : Nat) (fs : List Factor) :
    ((mulFactor a n fs).map Factor.exponent).sum = (fs.map Factor.exponent).sum + n := by
  induction fs with
  | nil => simp [mulFactor]
  | cons f fs ih =>
    rw [mulFactor]
    split
    · simp only [List.map_cons, List.sum_cons]
      omega
    · simp only [List.map_cons, List.sum_cons]
      omega
    · simp only [List.map_cons, List.sum_cons, ih]
      omega

theorem totalDegree_mul (m n : Monomial) : (m * n).totalDegree = m.totalDegree + n.totalDegree := by
  show ((n.factors.foldr (fun f fs => mulFactor f.atom f.exponent fs) m.factors).map
    Factor.exponent).sum = _
  rw [totalDegree, totalDegree]
  generalize n.factors = fs
  induction fs with
  | nil => rfl
  | cons f fs ih =>
    rw [List.foldr_cons, sum_mulFactor, ih, List.map_cons, List.sum_cons]
    omega

theorem mulFits_of_totalDegree (low : m.totalDegree + n.totalDegree < exponentLimit) :
    m.mulFits n = true := by
  refine List.all_eq_true.2 fun f mem => decide_eq_true ?_
  have left := m.exponent_atom_le_totalDegree f.atom
  have right := exponent_le_totalDegree mem
  omega

end Monomial

namespace Poly

variable {p q r : Poly} {d e : Nat}

/-- No monomial has a higher degree. -/
def DegreeLE (p : Poly) (d : Nat) : Prop := ∀ m ∈ p.monomials, m.totalDegree ≤ d

theorem DegreeLE.mono (h : p.DegreeLE d) (le : d ≤ e) : p.DegreeLE e :=
  fun m mem => (h m mem).trans le

theorem degreeLE_zero (d : Nat) : zero.DegreeLE d := fun _ mem => by cases mem

theorem totalDegree_of_isUnit {m : Monomial} (unit : m.isUnit = true) : m.totalDegree = 0 := by
  rw [eq_unit_of_isUnit unit]
  rfl

theorem degreeLE_const (c : Rat) (d : Nat) : (const c).DegreeLE d := fun m mem => by
  rw [totalDegree_of_isUnit (isUnit_of_mem_const mem)]
  exact Nat.zero_le d

theorem degreeLE_ofAtom (a : Atom) : (ofAtom a).DegreeLE 1 := fun m mem => by
  rw [List.mem_singleton.1 mem]
  exact Nat.le_refl 1

theorem DegreeLE.add (hp : p.DegreeLE d) (hq : q.DegreeLE d) : (p + q).DegreeLE d :=
  fun m mem => (mem_monomials_add mem).elim (hp m) (hq m)

theorem DegreeLE.scale (hp : p.DegreeLE d) (k : Rat) : (p.scale k).DegreeLE d :=
  fun m mem => hp m (mem_monomials_scale mem)

theorem DegreeLE.neg (hp : p.DegreeLE d) : (-p).DegreeLE d := hp.scale (-1)

theorem DegreeLE.sub (hp : p.DegreeLE d) (hq : q.DegreeLE d) : (p - q).DegreeLE d :=
  hp.add hq.neg

theorem DegreeLE.mul (hp : p.DegreeLE d) (hq : q.DegreeLE e) : (p * q).DegreeLE (d + e) := by
  intro m mem
  obtain ⟨k, left, l, right, rfl⟩ := mem_monomials_mul mem
  rw [Monomial.totalDegree_mul]
  exact Nat.add_le_add (hp k left) (hq l right)

theorem DegreeLE.pow (hp : p.DegreeLE d) (n : Nat) : (p.pow n).DegreeLE (d * n) := by
  induction n with
  | zero => exact degreeLE_const 1 _
  | succ n ih => exact ih.mul hp

/-- A polynomial without atoms has degree zero. -/
theorem degreeLE_of_constant? {c : Rat} (h : p.constant? = some c) : p.DegreeLE 0 := by
  unfold constant? at h
  split at h
  · next none =>
    intro m mem
    rw [monomials, none] at mem
    cases mem
  · next t single =>
    split at h
    · next unit =>
      intro m mem
      rw [monomials, single] at mem
      rw [List.mem_singleton.1 mem, totalDegree_of_isUnit unit]
    · cases h
  · cases h

/-- The product fits where the degrees add up to one that does. -/
theorem mulFits_of_degree (hp : p.DegreeLE d) (hq : q.DegreeLE e)
    (low : d + e < Monomial.exponentLimit) : p.mulFits q = true := by
  refine List.all_eq_true.2 fun t left => List.all_eq_true.2 fun u right =>
    Monomial.mulFits_of_totalDegree ?_
  have first := hp _ (List.mem_map_of_mem left)
  have second := hq _ (List.mem_map_of_mem right)
  omega

theorem mul?_of_degree (hp : p.DegreeLE d) (hq : q.DegreeLE e)
    (low : d + e < Monomial.exponentLimit) : p.mul? q = some (p * q) :=
  if_pos (mulFits_of_degree hp hq low)

/-- The power fits where its degree does. -/
theorem pow?_of_degree (hp : p.DegreeLE d) {n : Nat} (low : d * n < Monomial.exponentLimit) :
    p.pow? n = some (p.pow n) := by
  induction n with
  | zero => rfl
  | succ n ih =>
    have below : d * n < Monomial.exponentLimit := (Nat.mul_le_mul_left d n.le_succ).trans_lt low
    rw [pow?, ih below, Option.bind_some, mul?_of_degree (hp.pow n) hp low, pow]

end Poly
end PredicateStrength
