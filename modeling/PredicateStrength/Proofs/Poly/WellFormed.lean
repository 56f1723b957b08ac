import Mathlib
import PredicateStrength.Proofs.Poly.Value

/-!
# Well-formed polynomials

The operations on polynomials keep terms and factors in strictly ascending order, coefficients
other than zero and exponents above zero. `Poly.WellFormed` says so of a polynomial and of every
polynomial inside its atoms; `Poly.Integral` says the same of integer coefficients.

Main statements: an operation brings no new atom (`atoms_add`, `atoms_mul`, …), keeps the order
(`Ordered.add`, `Ordered.mul`, …) and keeps integer coefficients (`IntegerCoeffs.add`, …).
-/
namespace PredicateStrength

/-- The atoms of the factors. -/
def Monomial.atoms (m : Monomial) : List Atom := m.factors.map Factor.atom

/-- The atoms of all terms. -/
def Poly.atoms (p : Poly) : List Atom := p.terms.flatMap fun t => t.monomial.atoms

mutual
/-- `P` holds of every polynomial inside the atom, at any depth. -/
def Atom.Everywhere (P : Poly → Prop) : Atom → Prop
  | .symbol _ => True
  | .app _ ps => Poly.EverywhereAll P ps
  | .quot p q => p.Everywhere P ∧ q.Everywhere P
  | .rem p q => p.Everywhere P ∧ q.Everywhere P
  | .verbatim _ => True

def Factor.EverywhereAll (P : Poly → Prop) : List Factor → Prop
  | [] => True
  | ⟨a, _⟩ :: fs => a.Everywhere P ∧ Factor.EverywhereAll P fs

def Monomial.Everywhere (P : Poly → Prop) : Monomial → Prop
  | ⟨fs⟩ => Factor.EverywhereAll P fs

def Term.EverywhereAll (P : Poly → Prop) : List Term → Prop
  | [] => True
  | ⟨m, _⟩ :: ts => m.Everywhere P ∧ Term.EverywhereAll P ts

/-- `P` holds of the polynomial and of every polynomial inside its atoms, at any depth. -/
def Poly.Everywhere (P : Poly → Prop) : Poly → Prop
  | ⟨ts⟩ => P ⟨ts⟩ ∧ Term.EverywhereAll P ts

def Poly.EverywhereAll (P : Poly → Prop) : List Poly → Prop
  | [] => True
  | p :: ps => p.Everywhere P ∧ Poly.EverywhereAll P ps
end

variable {P : Poly → Prop}

theorem Factor.everywhereAll_iff {fs : List Factor} :
    Factor.EverywhereAll P fs ↔ ∀ f ∈ fs, f.atom.Everywhere P := by
  induction fs with
  | nil => simp [Factor.EverywhereAll]
  | cons f fs ih =>
    obtain ⟨a, n⟩ := f
    simp [Factor.EverywhereAll, ih]

theorem Monomial.everywhere_iff {m : Monomial} :
    m.Everywhere P ↔ ∀ a ∈ m.atoms, a.Everywhere P := by
  obtain ⟨fs⟩ := m
  simp [Monomial.Everywhere, Monomial.atoms, Factor.everywhereAll_iff]

theorem Term.everywhereAll_iff {ts : List Term} :
    Term.EverywhereAll P ts ↔ ∀ t ∈ ts, t.monomial.Everywhere P := by
  induction ts with
  | nil => simp [Term.EverywhereAll]
  | cons t ts ih =>
    obtain ⟨m, c⟩ := t
    simp [Term.EverywhereAll, ih]

theorem Poly.everywhere_iff {p : Poly} :
    p.Everywhere P ↔ P p ∧ ∀ a ∈ p.atoms, a.Everywhere P := by
  obtain ⟨ts⟩ := p
  rw [Poly.Everywhere, Term.everywhereAll_iff]
  simp only [Monomial.everywhere_iff, Poly.atoms, List.mem_flatMap]
  constructor
  · rintro ⟨own, inner⟩
    exact ⟨own, fun a ⟨t, ht, ha⟩ => inner t ht a ha⟩
  · rintro ⟨own, inner⟩
    exact ⟨own, fun t ht a ha => inner a ⟨t, ht, ha⟩⟩

theorem Poly.everywhereAll_iff {ps : List Poly} :
    Poly.EverywhereAll P ps ↔ ∀ p ∈ ps, p.Everywhere P := by
  induction ps with
  | nil => simp [Poly.EverywhereAll]
  | cons p ps ih => simp [Poly.EverywhereAll, ih]

theorem Poly.Everywhere.here {p : Poly} (h : p.Everywhere P) : P p :=
  (Poly.everywhere_iff.1 h).1

theorem Poly.Everywhere.atom {p : Poly} (h : p.Everywhere P) {a : Atom} (ha : a ∈ p.atoms) :
    a.Everywhere P :=
  (Poly.everywhere_iff.1 h).2 a ha

/-- The polynomials that the atom is made of. -/
def Atom.polys : Atom → List Poly
  | .symbol _ | .verbatim _ => []
  | .app _ ps => ps
  | .quot p q | .rem p q => [p, q]

theorem Atom.everywhere_iff {P : Poly → Prop} {a : Atom} :
    a.Everywhere P ↔ ∀ p ∈ a.polys, p.Everywhere P := by
  cases a <;> simp [Atom.Everywhere, Atom.polys, Poly.everywhereAll_iff]

theorem Atom.sizeOf_lt_of_mem_polys {p : Poly} {a : Atom} (h : p ∈ a.polys) :
    sizeOf p < sizeOf a := by
  cases a with
  | app head ps =>
    have smaller : sizeOf p < sizeOf ps := List.sizeOf_lt_of_mem h
    simp only [app.sizeOf_spec]
    omega
  | quot | rem =>
    rcases List.mem_pair.1 h with rfl | rfl
    all_goals
      simp only [quot.sizeOf_spec, rem.sizeOf_spec]
      omega
  | symbol | verbatim => cases h

theorem Poly.sizeOf_lt_of_mem_atoms {p : Poly} {a : Atom} (h : a ∈ p.atoms) :
    sizeOf a < sizeOf p := by
  obtain ⟨ts⟩ := p
  obtain ⟨⟨⟨fs⟩, c⟩, term, h⟩ := List.mem_flatMap.1 h
  obtain ⟨⟨b, n⟩, factor, rfl⟩ := List.mem_map.1 h
  have first := List.sizeOf_lt_of_mem term
  have second := List.sizeOf_lt_of_mem factor
  simp only [Poly.mk.sizeOf_spec, Term.mk.sizeOf_spec, Monomial.mk.sizeOf_spec,
    Factor.mk.sizeOf_spec] at *
  omega

/-- What passes from the atoms inside an atom to the atom holds of every atom. -/
@[elab_as_elim]
theorem Atom.inductionOnPolys {motive : Atom → Prop}
    (node : ∀ a : Atom, (∀ p ∈ a.polys, ∀ b ∈ p.atoms, motive b) → motive a) (a : Atom) :
    motive a :=
  node a fun p inside b mem =>
    have : sizeOf b < sizeOf a :=
      (Poly.sizeOf_lt_of_mem_atoms mem).trans (Atom.sizeOf_lt_of_mem_polys inside)
    inductionOnPolys node b
termination_by sizeOf a

theorem Atom.Everywhere.and {P Q : Poly → Prop} {a : Atom} (hp : a.Everywhere P)
    (hq : a.Everywhere Q) : a.Everywhere fun p => P p ∧ Q p := by
  induction a using Atom.inductionOnPolys with
  | node a ih =>
    rw [Atom.everywhere_iff] at *
    intro p mem
    have left := hp p mem
    have right := hq p mem
    exact Poly.everywhere_iff.2 ⟨⟨left.here, right.here⟩,
      fun b inside => ih p mem b inside (left.atom inside) (right.atom inside)⟩

theorem Poly.Everywhere.and {P Q : Poly → Prop} {p : Poly} (hp : p.Everywhere P)
    (hq : p.Everywhere Q) : p.Everywhere fun p => P p ∧ Q p :=
  Poly.everywhere_iff.2 ⟨⟨hp.here, hq.here⟩, fun _ mem => (hp.atom mem).and (hq.atom mem)⟩

namespace Monomial

theorem mem_atoms_mulFactor {a b : Atom} {n : Nat} {fs : List Factor}
    (h : b ∈ (mulFactor a n fs).map Factor.atom) : b = a ∨ b ∈ fs.map Factor.atom := by
  induction fs with
  | nil => simpa [mulFactor] using h
  | cons f fs ih =>
    rw [mulFactor] at h
    split at h
    · simpa using h
    · simp only [List.map_cons, List.mem_cons] at h ⊢
      tauto
    · simp only [List.map_cons, List.mem_cons] at h ⊢
      rcases h with h | h
      · exact .inr (.inl h)
      · rcases ih h with h | h
        · exact .inl h
        · exact .inr (.inr h)

theorem atoms_mul {m n : Monomial} {a : Atom} (h : a ∈ (m * n).atoms) :
    a ∈ m.atoms ∨ a ∈ n.atoms := by
  change a ∈ (n.factors.foldr (fun f fs => mulFactor f.atom f.exponent fs) m.factors).map _ at h
  rw [atoms, atoms]
  generalize n.factors = fs at h ⊢
  induction fs with
  | nil => exact .inl h
  | cons f fs ih =>
    rw [List.foldr_cons] at h
    rcases mem_atoms_mulFactor h with h | h
    · simp [h]
    · rcases ih h with h | h
      · exact .inl h
      · simp [h]

end Monomial

namespace Poly

theorem mem_addTerm {m : Monomial} {c : Rat} {ts : List Term} {t : Term}
    (h : t ∈ addTerm m c ts) : t.monomial = m ∨ t ∈ ts := by
  induction ts with
  | nil =>
    rw [addTerm] at h
    split at h <;> simp_all
  | cons u us ih =>
    rw [addTerm] at h
    split at h
    · split at h <;> grind
    · split at h <;> grind
    · rcases List.mem_cons.1 h with h | h
      · simp [h]
      · rcases ih h with h | h
        · exact .inl h
        · exact .inr (List.mem_cons_of_mem _ h)

theorem mem_monomials_add {p q : Poly} {m : Monomial} (h : m ∈ (p + q).monomials) :
    m ∈ p.monomials ∨ m ∈ q.monomials := by
  obtain ⟨t, ht, rfl⟩ := List.mem_map.1 h
  change t ∈ q.terms.foldr (fun t ts => addTerm t.monomial t.coeff ts) p.terms at ht
  obtain ⟨us⟩ := q
  induction us with
  | nil => exact .inl (List.mem_map_of_mem ht)
  | cons u us ih =>
    rcases mem_addTerm ht with same | old
    · exact .inr (by simp [monomials, same])
    · rcases ih (List.mem_map_of_mem old) old with left | right
      · exact .inl left
      · exact .inr (List.mem_cons_of_mem _ right)

theorem terms_scale {k : Rat} (hk : k ≠ 0) (p : Poly) :
    (p.scale k).terms = p.terms.map fun t => ⟨t.monomial, t.coeff * k⟩ := by
  rw [scale, if_neg hk]

theorem mem_monomials_scale {k : Rat} {p : Poly} {m : Monomial} (h : m ∈ (p.scale k).monomials) :
    m ∈ p.monomials := by
  rw [scale] at h
  split at h
  · simp [monomials, zero] at h
  · simpa [monomials, Function.comp_def] using h

theorem mem_monomials_sub {p q : Poly} {m : Monomial} (h : m ∈ (p - q).monomials) :
    m ∈ p.monomials ∨ m ∈ q.monomials :=
  (mem_monomials_add h).imp_right mem_monomials_scale

theorem mem_monomials_mulTerm {p : Poly} {t : Term} {m : Monomial}
    (h : m ∈ (p.mulTerm t).monomials) : ∃ k ∈ p.monomials, m = k * t.monomial := by
  obtain ⟨u, mem, rfl⟩ := List.mem_map.1 h
  clear h
  obtain ⟨us⟩ := p
  induction us with
  | nil => cases mem
  | cons v us ih =>
    rcases mem_addTerm mem with same | old
    · exact ⟨v.monomial, List.mem_map_of_mem (.head _), same⟩
    · obtain ⟨k, inside, product⟩ := ih old
      exact ⟨k, List.mem_cons_of_mem _ inside, product⟩

/-- A monomial of a product is one of monomials of the factors. -/
theorem mem_monomials_mul {p q : Poly} {m : Monomial} (h : m ∈ (p * q).monomials) :
    ∃ k ∈ p.monomials, ∃ l ∈ q.monomials, m = k * l := by
  change m ∈ (q.terms.foldr (fun t r => r + p.mulTerm t) zero).monomials at h
  obtain ⟨us⟩ := q
  induction us with
  | nil => cases h
  | cons u us ih =>
    rcases mem_monomials_add h with earlier | last
    · obtain ⟨k, left, l, right, product⟩ := ih earlier
      exact ⟨k, left, l, List.mem_cons_of_mem _ right, product⟩
    · obtain ⟨k, left, product⟩ := mem_monomials_mulTerm last
      exact ⟨k, left, u.monomial, List.mem_map_of_mem (.head _), product⟩

theorem isUnit_of_mem_const {q : Rat} {m : Monomial} (h : m ∈ (const q).monomials) :
    m.isUnit = true := by
  rw [const] at h
  split at h
  · simp [monomials, zero] at h
  · have unit : m = .unit := by simpa [monomials] using h
    rw [unit]
    rfl

theorem mem_atoms {p : Poly} {a : Atom} : a ∈ p.atoms ↔ ∃ m ∈ p.monomials, a ∈ m.atoms := by
  simp [atoms, monomials]

theorem atoms_cons {t : Term} {ts : List Term} {a : Atom} :
    a ∈ (⟨t :: ts⟩ : Poly).atoms ↔ a ∈ t.monomial.atoms ∨ a ∈ (⟨ts⟩ : Poly).atoms := by
  simp [atoms]

theorem atoms_add {p q : Poly} {a : Atom} (h : a ∈ (p + q).atoms) :
    a ∈ p.atoms ∨ a ∈ q.atoms := by
  obtain ⟨m, mem, inside⟩ := mem_atoms.1 h
  exact (mem_monomials_add mem).imp (fun left => mem_atoms.2 ⟨m, left, inside⟩)
    fun right => mem_atoms.2 ⟨m, right, inside⟩

theorem atoms_scale {k : Rat} {p : Poly} {a : Atom} (h : a ∈ (p.scale k).atoms) :
    a ∈ p.atoms := by
  obtain ⟨m, mem, inside⟩ := mem_atoms.1 h
  exact mem_atoms.2 ⟨m, mem_monomials_scale mem, inside⟩

theorem atoms_neg {p : Poly} {a : Atom} (h : a ∈ (-p).atoms) : a ∈ p.atoms := atoms_scale h

theorem atoms_sub {p q : Poly} {a : Atom} (h : a ∈ (p - q).atoms) : a ∈ p.atoms ∨ a ∈ q.atoms :=
  (atoms_add h).imp_right atoms_neg

theorem atoms_mul {p q : Poly} {a : Atom} (h : a ∈ (p * q).atoms) :
    a ∈ p.atoms ∨ a ∈ q.atoms := by
  obtain ⟨m, mem, inside⟩ := mem_atoms.1 h
  obtain ⟨k, left, l, right, rfl⟩ := mem_monomials_mul mem
  exact (Monomial.atoms_mul inside).imp (fun first => mem_atoms.2 ⟨k, left, first⟩)
    fun second => mem_atoms.2 ⟨l, right, second⟩

@[simp] theorem atoms_zero : zero.atoms = [] := rfl

@[simp] theorem atoms_const (q : Rat) : (const q).atoms = [] := by
  rw [const]
  split
  · rfl
  · rfl

@[simp] theorem atoms_ofAtom (a : Atom) : (ofAtom a).atoms = [a] := rfl

theorem atoms_pow {p : Poly} {n : Nat} {a : Atom} (h : a ∈ (p.pow n).atoms) : a ∈ p.atoms := by
  induction n with
  | zero => simp [pow] at h
  | succ n ih =>
    rw [pow] at h
    rcases atoms_mul h with h | h
    · exact ih h
    · exact h

end Poly

/-- Factors with different atoms in ascending order, and exponents above zero. -/
structure Monomial.Ordered (m : Monomial) : Prop where
  ascending : Sorting.StrictlyAscending Atom.cmp m.atoms
  exponent_pos : ∀ f ∈ m.factors, 0 < f.exponent

/-- Ordered monomials, all different, in ascending order, and coefficients other than zero. -/
structure Poly.Ordered (p : Poly) : Prop where
  ascending : Sorting.StrictlyAscending Monomial.cmp p.monomials
  coeff_ne_zero : ∀ t ∈ p.terms, t.coeff ≠ 0
  monomial : ∀ t ∈ p.terms, t.monomial.Ordered

namespace Monomial

theorem ordered_unit : unit.Ordered := ⟨.nil, by simp [unit]⟩

theorem ordered_ofAtom (a : Atom) : (ofAtom a).Ordered :=
  ⟨List.pairwise_singleton _ _, by simp [ofAtom]⟩

theorem Ordered.mulFactor {a : Atom} {n : Nat} {fs : List Factor} (h : Ordered ⟨fs⟩)
    (positive : 0 < n) : Ordered ⟨Monomial.mulFactor a n fs⟩ := by
  induction fs with
  | nil => exact ⟨List.pairwise_singleton _ _, by simp [Monomial.mulFactor, positive]⟩
  | cons f fs ih =>
    obtain ⟨ascending, exponents⟩ := h
    obtain ⟨below, rest⟩ := List.pairwise_cons.1 ascending
    have tail : Ordered ⟨fs⟩ := ⟨rest, fun g hg => exponents g (List.mem_cons_of_mem _ hg)⟩
    rw [Monomial.mulFactor]
    split
    · next less =>
      refine ⟨List.pairwise_cons.2 ⟨fun b hb => ?_, ascending⟩, ?_⟩
      · rcases List.mem_cons.1 hb with rfl | hb
        · exact less
        · exact Std.TransCmp.lt_trans less (below b hb)
      · simpa [positive] using exponents
    · next same =>
      have eq := (Atom.cmp_eq_iff _ _).1 same
      refine ⟨?_, ?_⟩
      · show Sorting.StrictlyAscending Atom.cmp (a :: fs.map Factor.atom)
        rw [eq]
        exact ascending
      · simp only [List.mem_cons, forall_eq_or_imp] at exponents ⊢
        exact ⟨by omega, exponents.2⟩
    · next greater =>
      obtain ⟨restAscending, restExponents⟩ := ih tail
      refine ⟨List.pairwise_cons.2 ⟨fun b hb => ?_, restAscending⟩, ?_⟩
      · rcases mem_atoms_mulFactor hb with rfl | hb
        · exact Std.OrientedCmp.lt_of_gt greater
        · exact below b hb
      · simp only [List.mem_cons, forall_eq_or_imp] at exponents ⊢
        exact ⟨exponents.1, restExponents⟩

theorem Ordered.mul {m n : Monomial} (hm : m.Ordered) (hn : n.Ordered) : (m * n).Ordered := by
  show Ordered ⟨n.factors.foldr (fun f fs => Monomial.mulFactor f.atom f.exponent fs) m.factors⟩
  obtain ⟨gs⟩ := m
  have positive := hn.exponent_pos
  generalize n.factors = fs at positive
  induction fs with
  | nil => exact hm
  | cons f fs ih =>
    rw [List.foldr_cons]
    exact (ih fun g hg => positive g (List.mem_cons_of_mem _ hg)).mulFactor (positive f (by simp))

end Monomial

namespace Poly

theorem ordered_zero : zero.Ordered := ⟨.nil, by simp [zero], by simp [zero]⟩

theorem ordered_singleton {m : Monomial} {c : Rat} (hm : m.Ordered) (hc : c ≠ 0) :
    Ordered ⟨[⟨m, c⟩]⟩ :=
  ⟨List.pairwise_singleton _ _, by simpa using hc, by simpa using hm⟩

theorem ordered_const (q : Rat) : (const q).Ordered := by
  rw [const]
  split
  · exact ordered_zero
  · next h => exact ordered_singleton Monomial.ordered_unit h

theorem ordered_ofAtom (a : Atom) : (ofAtom a).Ordered :=
  ordered_singleton (Monomial.ordered_ofAtom a) one_ne_zero

theorem Ordered.cons_iff {t : Term} {ts : List Term} :
    Ordered ⟨t :: ts⟩ ↔
      (t.coeff ≠ 0 ∧ t.monomial.Ordered ∧ ∀ u ∈ ts, t.monomial.cmp u.monomial = .lt) ∧
        Ordered ⟨ts⟩ := by
  constructor
  · rintro ⟨ascending, coeffs, monomials⟩
    obtain ⟨below, rest⟩ := List.pairwise_cons.1 ascending
    simp only [List.mem_cons, forall_eq_or_imp] at coeffs monomials
    exact ⟨⟨coeffs.1, monomials.1, fun u hu => below _ (List.mem_map_of_mem hu)⟩,
      rest, coeffs.2, monomials.2⟩
  · rintro ⟨⟨coeff, monomial, below⟩, rest, coeffs, monomials⟩
    refine ⟨List.pairwise_cons.2 ⟨?_, rest⟩, ?_, ?_⟩
    · simpa [monomials] using below
    · simpa using ⟨coeff, coeffs⟩
    · simpa using ⟨monomial, monomials⟩

theorem Ordered.addTerm {m : Monomial} {c : Rat} {ts : List Term} (hm : m.Ordered)
    (h : Ordered ⟨ts⟩) : Ordered ⟨Poly.addTerm m c ts⟩ := by
  induction ts with
  | nil =>
    rw [Poly.addTerm]
    split
    · exact h
    · next hc => exact ordered_singleton hm hc
  | cons t ts ih =>
    obtain ⟨⟨coeff, monomial, below⟩, rest⟩ := cons_iff.1 h
    rw [Poly.addTerm]
    split
    · next less =>
      split
      · exact h
      · next hc =>
        refine cons_iff.2 ⟨⟨hc, hm, fun u hu => ?_⟩, h⟩
        rcases List.mem_cons.1 hu with rfl | hu
        · exact less
        · exact Std.TransCmp.lt_trans less (below u hu)
    · next same =>
      have eq := (Monomial.cmp_eq_iff _ _).1 same
      split
      · exact rest
      · next hc => exact cons_iff.2 ⟨⟨hc, hm, eq ▸ below⟩, rest⟩
    · next greater =>
      refine cons_iff.2 ⟨⟨coeff, monomial, fun u hu => ?_⟩, ih rest⟩
      rcases mem_addTerm hu with eq | hu
      · rw [eq]
        exact Std.OrientedCmp.lt_of_gt greater
      · exact below u hu

theorem Ordered.add {p q : Poly} (hp : p.Ordered) (hq : q.Ordered) : (p + q).Ordered := by
  show Ordered ⟨q.terms.foldr (fun t ts => Poly.addTerm t.monomial t.coeff ts) p.terms⟩
  obtain ⟨ts⟩ := p
  have monomials := hq.monomial
  generalize q.terms = us at monomials
  induction us with
  | nil => exact hp
  | cons u us ih =>
    rw [List.foldr_cons]
    exact .addTerm (monomials u (by simp)) (ih fun t ht => monomials t (List.mem_cons_of_mem _ ht))

theorem Ordered.scale {p : Poly} (hp : p.Ordered) (k : Rat) : (p.scale k).Ordered := by
  rw [Poly.scale]
  split
  · exact ordered_zero
  · next hk =>
    refine ⟨?_, ?_, ?_⟩
    · simpa [monomials, Function.comp_def] using hp.ascending
    · simpa [hk] using hp.coeff_ne_zero
    · simpa using hp.monomial

theorem Ordered.neg {p : Poly} (hp : p.Ordered) : (-p).Ordered := hp.scale (-1)

theorem Ordered.sub {p q : Poly} (hp : p.Ordered) (hq : q.Ordered) : (p - q).Ordered :=
  hp.add hq.neg

theorem Ordered.mulTerm {p : Poly} {t : Term} (hp : p.Ordered) (ht : t.monomial.Ordered) :
    (p.mulTerm t).Ordered := by
  rw [Poly.mulTerm]
  have monomials := hp.monomial
  generalize p.terms = us at monomials
  induction us with
  | nil => exact ordered_zero
  | cons u us ih =>
    rw [List.foldr_cons]
    exact .addTerm ((monomials u (by simp)).mul ht)
      (ih fun t ht => monomials t (List.mem_cons_of_mem _ ht))

theorem Ordered.mul {p q : Poly} (hp : p.Ordered) (hq : q.Ordered) : (p * q).Ordered := by
  show (q.terms.foldr (fun t r => r + p.mulTerm t) zero).Ordered
  have monomials := hq.monomial
  generalize q.terms = us at monomials
  induction us with
  | nil => exact ordered_zero
  | cons u us ih =>
    rw [List.foldr_cons]
    exact (ih fun t ht => monomials t (List.mem_cons_of_mem _ ht)).add
      (hp.mulTerm (monomials u (by simp)))

theorem Ordered.pow {p : Poly} (hp : p.Ordered) (n : Nat) : (p.pow n).Ordered := by
  induction n with
  | zero => exact ordered_const 1
  | succ n ih => exact ih.mul hp

/-- Every coefficient is an integer. -/
def IntegerCoeffs (p : Poly) : Prop := ∀ t ∈ p.terms, t.coeff.den = 1

theorem den_eq_one_iff_exists {q : Rat} : q.den = 1 ↔ ∃ n : Int, q = n := by
  constructor
  · intro h
    exact ⟨q.num, (Rat.den_eq_one_iff q).1 h |>.symm⟩
  · rintro ⟨n, rfl⟩
    exact Rat.den_intCast n

theorem den_add_eq_one {a b : Rat} (ha : a.den = 1) (hb : b.den = 1) : (a + b).den = 1 := by
  obtain ⟨m, rfl⟩ := den_eq_one_iff_exists.1 ha
  obtain ⟨n, rfl⟩ := den_eq_one_iff_exists.1 hb
  exact den_eq_one_iff_exists.2 ⟨m + n, by push_cast; rfl⟩

theorem den_mul_eq_one {a b : Rat} (ha : a.den = 1) (hb : b.den = 1) : (a * b).den = 1 := by
  obtain ⟨m, rfl⟩ := den_eq_one_iff_exists.1 ha
  obtain ⟨n, rfl⟩ := den_eq_one_iff_exists.1 hb
  exact den_eq_one_iff_exists.2 ⟨m * n, by push_cast; rfl⟩

theorem integerCoeffs_zero : zero.IntegerCoeffs := by simp [IntegerCoeffs, zero]

theorem integerCoeffs_const {q : Rat} (hq : q.den = 1) : (const q).IntegerCoeffs := by
  rw [const]
  split
  · exact integerCoeffs_zero
  · simpa [IntegerCoeffs] using hq

theorem integerCoeffs_ofAtom (a : Atom) : (ofAtom a).IntegerCoeffs := by
  simp [IntegerCoeffs, ofAtom]

theorem IntegerCoeffs.cons_iff {t : Term} {ts : List Term} :
    IntegerCoeffs ⟨t :: ts⟩ ↔ t.coeff.den = 1 ∧ IntegerCoeffs ⟨ts⟩ := by
  simp [IntegerCoeffs]

theorem IntegerCoeffs.addTerm {m : Monomial} {c : Rat} {ts : List Term} (hc : c.den = 1)
    (h : IntegerCoeffs ⟨ts⟩) : IntegerCoeffs ⟨Poly.addTerm m c ts⟩ := by
  induction ts with
  | nil =>
    rw [Poly.addTerm]
    split
    · exact h
    · exact cons_iff.2 ⟨hc, h⟩
  | cons t ts ih =>
    obtain ⟨coeff, rest⟩ := cons_iff.1 h
    rw [Poly.addTerm]
    split
    · split
      · exact h
      · exact cons_iff.2 ⟨hc, h⟩
    · split
      · exact rest
      · exact cons_iff.2 ⟨den_add_eq_one coeff hc, rest⟩
    · exact cons_iff.2 ⟨coeff, ih rest⟩

theorem IntegerCoeffs.add {p q : Poly} (hp : p.IntegerCoeffs) (hq : q.IntegerCoeffs) :
    (p + q).IntegerCoeffs := by
  show IntegerCoeffs ⟨q.terms.foldr (fun t ts => Poly.addTerm t.monomial t.coeff ts) p.terms⟩
  obtain ⟨ts⟩ := p
  obtain ⟨us⟩ := q
  induction us with
  | nil => exact hp
  | cons u us ih =>
    obtain ⟨coeff, rest⟩ := cons_iff.1 hq
    rw [List.foldr_cons]
    exact .addTerm coeff (ih rest)

theorem IntegerCoeffs.scale {p : Poly} {k : Rat} (hp : ∀ t ∈ p.terms, (t.coeff * k).den = 1) :
    (p.scale k).IntegerCoeffs := by
  rw [Poly.scale]
  split
  · exact integerCoeffs_zero
  · simpa [IntegerCoeffs] using hp

theorem IntegerCoeffs.neg {p : Poly} (hp : p.IntegerCoeffs) : (-p).IntegerCoeffs :=
  .scale fun t ht => den_mul_eq_one (hp t ht) rfl

theorem IntegerCoeffs.sub {p q : Poly} (hp : p.IntegerCoeffs) (hq : q.IntegerCoeffs) :
    (p - q).IntegerCoeffs :=
  hp.add hq.neg

theorem IntegerCoeffs.mulTerm {p : Poly} {t : Term} (hp : p.IntegerCoeffs)
    (ht : t.coeff.den = 1) : (p.mulTerm t).IntegerCoeffs := by
  rw [Poly.mulTerm]
  obtain ⟨us⟩ := p
  induction us with
  | nil => exact integerCoeffs_zero
  | cons u us ih =>
    obtain ⟨coeff, rest⟩ := cons_iff.1 hp
    rw [List.foldr_cons]
    exact .addTerm (den_mul_eq_one coeff ht) (ih rest)

theorem IntegerCoeffs.mul {p q : Poly} (hp : p.IntegerCoeffs) (hq : q.IntegerCoeffs) :
    (p * q).IntegerCoeffs := by
  show (q.terms.foldr (fun t r => r + p.mulTerm t) zero).IntegerCoeffs
  obtain ⟨us⟩ := q
  induction us with
  | nil => exact integerCoeffs_zero
  | cons u us ih =>
    obtain ⟨coeff, rest⟩ := cons_iff.1 hq
    rw [List.foldr_cons]
    exact (ih rest).add (hp.mulTerm coeff)

theorem IntegerCoeffs.pow {p : Poly} (hp : p.IntegerCoeffs) (n : Nat) :
    (p.pow n).IntegerCoeffs := by
  induction n with
  | zero => exact integerCoeffs_const rfl
  | succ n ih => exact ih.mul hp

/-- A polynomial with integer coefficients takes integer values at integers. -/
theorem IntegerCoeffs.value_eq_int (v : Atom → Int) {p : Poly} (hp : p.IntegerCoeffs) :
    ∃ n : Int, p.value v = n := by
  obtain ⟨ts⟩ := p
  induction ts with
  | nil => exact ⟨0, by simp [value]⟩
  | cons t ts ih =>
    obtain ⟨coeff, rest⟩ := cons_iff.1 hp
    obtain ⟨c, hc⟩ := den_eq_one_iff_exists.1 coeff
    obtain ⟨n, hn⟩ := ih rest
    refine ⟨c * t.monomial.value v + n, ?_⟩
    rw [value] at hn ⊢
    rw [Term.sum_cons, hc, hn]
    push_cast
    ring

/-- Terms and factors are in order, in the polynomial and inside its atoms. -/
def WellFormed (p : Poly) : Prop := p.Everywhere Ordered

/-- All coefficients are integers, in the polynomial and inside its atoms. -/
def Integral (p : Poly) : Prop := p.Everywhere IntegerCoeffs

theorem Everywhere.monomial {P : Poly → Prop} {p : Poly} (h : p.Everywhere P) {m : Monomial}
    (hm : m ∈ p.monomials) : m.Everywhere P := by
  obtain ⟨t, ht, rfl⟩ := List.mem_map.1 hm
  exact Monomial.everywhere_iff.2 fun a ha => h.atom (List.mem_flatMap.2 ⟨t, ht, ha⟩)

end Poly
end PredicateStrength
