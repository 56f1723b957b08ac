import Mathlib
import PredicateStrength.Proofs.Formula.Converted
import PredicateStrength.Proofs.Numeral
import PredicateStrength.Proofs.Poly.Identity

/-!
# The tree of a polynomial is converted back to it

A tree of a polynomial is a sum less a sum. Each summand is a product of powers, which conversion
multiplies out to the same term; the terms add up to a polynomial with the same value at every
choice of values for the monomials, and that is the same polynomial. The powers have to be small
enough to be multiplied out, and the coefficients integers: a fraction is written as a division,
which conversion takes for one that is rounded.

Main statement: `Poly.convertsTo_toExpr`.
-/
namespace PredicateStrength

open Conversion

namespace Monomial

variable {fs : List Factor} {f : Factor}

theorem atom_lt (h : Ordered ⟨fs ++ [f]⟩) : ∀ g ∈ fs, g.atom.cmp f.atom = .lt := by
  have ascending : Sorting.StrictlyAscending Atom.cmp (fs.map Factor.atom ++ [f.atom]) := by
    simpa [atoms] using h.ascending
  intro g mem
  exact (List.pairwise_append.1 ascending).2.2 _ (List.mem_map_of_mem mem) _ (.head _)

theorem mulFactor_of_lt {a : Atom} {n : Nat} (below : ∀ g ∈ fs, g.atom.cmp a = .lt) :
    mulFactor a n fs = fs ++ [⟨a, n⟩] := by
  induction fs with
  | nil => rfl
  | cons g gs ih =>
    obtain ⟨first, rest⟩ := List.forall_mem_cons.1 below
    rw [mulFactor, Std.OrientedCmp.gt_of_lt first, ih rest, List.cons_append]

theorem Ordered.front {gs : List Factor} (h : Ordered ⟨fs ++ gs⟩) : Ordered ⟨fs⟩ := by
  have ascending : Sorting.StrictlyAscending Atom.cmp (fs.map Factor.atom ++ gs.map Factor.atom) := by
    simpa [atoms] using h.ascending
  exact ⟨(List.pairwise_append.1 ascending).1,
    fun g mem => h.exponent_pos g (List.mem_append_left _ mem)⟩

theorem mul_last (h : Ordered ⟨fs ++ [f]⟩) : (⟨fs⟩ : Monomial) * ⟨[f]⟩ = ⟨fs ++ [f]⟩ := by
  obtain ⟨a, n⟩ := f
  exact congrArg Monomial.mk (mulFactor_of_lt (atom_lt h))

theorem mulFits_last (h : Ordered ⟨fs ++ [f]⟩) (small : f.exponent < exponentLimit) :
    (⟨fs⟩ : Monomial).mulFits ⟨[f]⟩ = true := by
  have other : fs.find? (·.atom = f.atom) = none := by
    refine List.find?_eq_none.2 fun g mem same => ?_
    have below := atom_lt h g mem
    rw [of_decide_eq_true same, (Atom.cmp_eq_iff _ _).2 rfl] at below
    cases below
  simp [mulFits, exponent, other, small]

end Monomial

namespace Poly

/-- A single term. -/
def ofTerm (m : Monomial) (c : Rat) : Poly := ⟨[⟨m, c⟩]⟩

variable {m n : Monomial} {c d : Rat}

theorem const_eq_ofTerm (h : c ≠ 0) : const c = ofTerm .unit c := if_neg h

theorem integer?_const (n : Int) : (const n).integer? = some n := by
  by_cases zero : n = 0
  · subst zero
    rfl
  · rw [const_eq_ofTerm (by exact_mod_cast zero)]
    rfl

theorem mul?_ofTerm (fits : m.mulFits n = true) (hc : c ≠ 0) (hd : d ≠ 0) :
    (ofTerm m c).mul? (ofTerm n d) = some (ofTerm (m * n) (c * d)) := by
  have product : ofTerm m c * ofTerm n d = ofTerm (m * n) (c * d) := by
    show zero + (ofTerm m c).mulTerm ⟨n, d⟩ = _
    have single : addTerm (m * n) (c * d) [] = [⟨m * n, c * d⟩] := if_neg (mul_ne_zero hc hd)
    show add zero ⟨addTerm (m * n) (c * d) []⟩ = _
    rw [single, add]
    exact congrArg Poly.mk single
  rw [mul?, if_pos (by simp [mulFits, ofTerm, fits]), product]

/-- The factors of an ordered product come one after the other. -/
theorem mul?_last {fs : List Factor} {f : Factor} (h : Monomial.Ordered ⟨fs ++ [f]⟩)
    (small : f.exponent < Monomial.exponentLimit) (hc : c ≠ 0) :
    (ofTerm ⟨fs⟩ c).mul? (ofTerm ⟨[f]⟩ 1) = some (ofTerm ⟨fs ++ [f]⟩ c) := by
  rw [mul?_ofTerm (Monomial.mulFits_last h small) hc one_ne_zero, Monomial.mul_last h, mul_one]

theorem pow?_ofAtom {a : Atom} {n : Nat} (small : n + 1 < Monomial.exponentLimit) :
    (ofAtom a).pow? (n + 1) = some (ofTerm ⟨[⟨a, n + 1⟩]⟩ 1) := by
  induction n with
  | zero =>
    have front : Monomial.Ordered ⟨[] ++ [⟨a, 1⟩]⟩ := Monomial.ordered_ofAtom a
    exact mul?_last front small one_ne_zero
  | succ n ih =>
    have fits : Monomial.mulFits ⟨[⟨a, n + 1⟩]⟩ (.ofAtom a) = true := by
      simpa [Monomial.mulFits, Monomial.exponent, Monomial.ofAtom] using small
    have product : (⟨[⟨a, n + 1⟩]⟩ : Monomial) * .ofAtom a = ⟨[⟨a, n + 2⟩]⟩ := by
      show Monomial.mk (Monomial.mulFactor a 1 [⟨a, n + 1⟩]) = _
      rw [Monomial.mulFactor, (Atom.cmp_eq_iff _ _).2 rfl]
    rw [pow?, ih (by omega), Option.bind_some, ofAtom]
    exact (mul?_ofTerm fits one_ne_zero one_ne_zero).trans (by rw [product, mul_one])

end Poly

namespace Expr

/-- The tree is converted to the polynomial. -/
def ConvertsTo (e : Expr) (p : Poly) : Prop := e.toPoly.result = .ok p

variable {a b e : Expr} {es : List Expr} {p q r : Poly}

theorem convertsTo_numeral (n : Nat) : ConvertsTo (.num (toString n)) (.const n) := by
  have value := Numeral.value?_of_isDigits (Numeral.isDigits_toString n)
  rw [Numeral.amount_toString] at value
  rw [ConvertsTo, toPoly, term, numeral, value]
  rfl

theorem convertsTo_ofInt {n : Int} (nonneg : 0 ≤ n) : ConvertsTo (ofInt n) (.const n) := by
  obtain ⟨k, rfl⟩ := Int.eq_ofNat_of_zero_le nonneg
  rw [ofInt, if_neg (by omega), Int.natAbs_natCast]
  exact convertsTo_numeral k

namespace ConvertsTo

theorem neg (h : e.ConvertsTo p) : ConvertsTo (.neg e) (-p) :=
  Attempt.bind_eq_ok.2 ⟨p, h, rfl⟩

theorem sub (ha : a.ConvertsTo p) (hb : b.ConvertsTo q) : ConvertsTo (.binary .sub a b) (p - q) :=
  Attempt.bind_eq_ok.2 ⟨p, ha, Attempt.bind_eq_ok.2 ⟨q, hb, rfl⟩⟩

theorem isBoolean (h : e.ConvertsTo p) : e.isBoolean = false := by
  cases root : e.isBoolean with
  | false => rfl
  | true => exact absurd h (term_isBoolean root)

theorem ordered (h : e.ConvertsTo p) : p.Ordered := (wellFormed_term h).here

end ConvertsTo

/-- A power of an atom that conversion multiplies out. -/
theorem power_ofAtom {x : Atom} {n : Nat} (positive : 0 < n) (small : n ≤ maxSymbolicExponent) :
    (power e (.ofAtom x) (.const n)).result = .ok (.ofTerm ⟨[⟨x, n⟩]⟩ 1) := by
  obtain ⟨k, rfl⟩ := Nat.exists_eq_succ_of_ne_zero positive.ne'
  have exponent : (Poly.const ((k + 1 : Nat) : Rat)).integer? = some ((k + 1 : Nat) : Int) := by
    exact_mod_cast Poly.integer?_const (k + 1 : Nat)
  have unknown : (Poly.ofAtom x).constant? = none := rfl
  have inLimit : 0 ≤ ((k + 1 : Nat) : Int) ∧ ((k + 1 : Nat) : Int) ≤ maxSymbolicExponent := by omega
  have fits : k + 1 < Monomial.exponentLimit := lt_of_le_of_lt small (by decide)
  unfold power
  simp only [unknown, exponent, Option.isSome_none, Bool.false_eq_true, if_false, if_pos inLimit,
    Int.toNat_natCast, Poly.pow?_ofAtom fits]
  rfl

theorem convertsTo_factor {f : Factor} (h : f.atom.toExpr.ConvertsTo (.ofAtom f.atom))
    (positive : 0 < f.exponent) (small : f.exponent ≤ maxSymbolicExponent) :
    ConvertsTo (if f.exponent = 1 then f.atom.toExpr
      else .binary .pow f.atom.toExpr (.num (toString f.exponent))) (.ofTerm ⟨[f]⟩ 1) := by
  obtain ⟨a, n⟩ := f
  split
  · next one =>
    cases one
    exact h
  · exact Attempt.bind_eq_ok.2 ⟨_, h, Attempt.bind_eq_ok.2
      ⟨_, convertsTo_numeral n, power_ofAtom positive small⟩⟩

/-- The trees of factors are converted to them, each by itself. -/
def FactorsConvert (es : List Expr) (fs : List Factor) : Prop :=
  List.Forall₂ (fun e f => e.ConvertsTo (.ofTerm ⟨[f]⟩ 1)) es fs

theorem joinedTo_factors {c : Rat} (hc : c ≠ 0) {before fs : List Factor}
    (factors : FactorsConvert es fs) (ordered : Monomial.Ordered ⟨before ++ fs⟩)
    (small : ∀ f ∈ fs, f.exponent < Monomial.exponentLimit) :
    (joinedTo e .mul (.ofTerm ⟨before⟩ c) es).result = .ok (.ofTerm ⟨before ++ fs⟩ c) := by
  induction factors generalizing before with
  | nil =>
    rw [List.append_nil]
    rfl
  | @cons x f xs fs first rest ih =>
    rw [List.append_cons] at ordered ⊢
    have product := Poly.mul?_last ordered.front (small f (.head _)) hc
    refine Attempt.bind_eq_ok.2 ⟨_, first, Attempt.bind_eq_ok.2 ⟨_, orOverflow_eq_ok.2 product, ?_⟩⟩
    exact ih ordered fun g mem => small g (.tail _ mem)

/-- A product is converted to the term that it is written for. -/
theorem convertsTo_product {c : Rat} (positive : 0 < c) (integer : c.den = 1) {fs : List Factor}
    (factors : FactorsConvert es fs) (ordered : Monomial.Ordered ⟨fs⟩)
    (small : ∀ f ∈ fs, f.exponent < Monomial.exponentLimit) :
    ConvertsTo (product c es) (.ofTerm ⟨fs⟩ c) := by
  obtain ⟨n, rfl⟩ := Poly.den_eq_one_iff_exists.1 integer
  have nonneg : 0 ≤ n := by exact_mod_cast positive.le
  obtain ⟨k, rfl⟩ := Int.eq_ofNat_of_zero_le nonneg
  cases factors with
  | nil =>
    rw [product, if_pos List.isEmpty_nil, ofRat, if_pos integer]
    exact Poly.const_eq_ofTerm positive.ne' ▸ convertsTo_ofInt nonneg
  | @cons x f xs fs first rest =>
    have behind : Monomial.Ordered ⟨[f] ++ fs⟩ := ordered
    have joins (e : Expr) : (joinedTo e .mul (.ofTerm ⟨[f]⟩ 1) xs).result =
        .ok (.ofTerm ⟨f :: fs⟩ 1) :=
      joinedTo_factors one_ne_zero rest behind fun g mem => small g (.tail _ mem)
    unfold product
    simp only [List.isEmpty_cons, Bool.false_eq_true, if_false, if_pos integer]
    by_cases one : k = 1
    · subst one
      cases rest with
      | nil => exact first
      | cons => exact Attempt.bind_eq_ok.2 ⟨_, first, joins _⟩
    · have numerator : ¬((k : Int) : Rat).num = 1 := by
        rw [Rat.num_intCast]
        exact_mod_cast one
      have digits : toString (k : Int) = toString k := rfl
      have coeff : ((k : Int) : Rat) ≠ 0 := positive.ne'
      have front : Monomial.Ordered ⟨[] ++ f :: fs⟩ := ordered
      rw [if_neg numerator, Rat.num_intCast, digits]
      refine Attempt.bind_eq_ok.2 ⟨_, convertsTo_numeral k, ?_⟩
      exact (Poly.const_eq_ofTerm coeff).symm ▸
        joinedTo_factors coeff (.cons first rest) front small

/-- The polynomial that the tree is converted to has the value, whatever the monomials have. -/
def Denotes (e : Expr) (v : (Monomial → Rat) → Rat) : Prop :=
  ∃ p, e.ConvertsTo p ∧ ∀ w, p.valueAt w = v w

variable {v u : (Monomial → Rat) → Rat} {vs us : List ((Monomial → Rat) → Rat)}

theorem ConvertsTo.denotes (h : e.ConvertsTo p) (same : ∀ w, p.valueAt w = v w) : e.Denotes v :=
  ⟨p, h, same⟩

theorem convertsTo_of_denotes (h : e.Denotes v) (ordered : p.Ordered)
    (same : ∀ w, p.valueAt w = v w) : e.ConvertsTo p := by
  obtain ⟨q, converts, values⟩ := h
  have equal := Poly.eq_of_valueAt converts.ordered ordered fun w =>
    (values w).trans (same w).symm
  exact equal ▸ converts

namespace Denotes

theorem zero : Denotes (.num "0") 0 :=
  (convertsTo_numeral 0).denotes fun _ => rfl

theorem neg (h : e.Denotes v) : Denotes (.neg e) (-v) := by
  obtain ⟨p, converts, values⟩ := h
  exact converts.neg.denotes fun w => by rw [Poly.valueAt_neg, values, Pi.neg_apply]

theorem sub (ha : a.Denotes v) (hb : b.Denotes u) : Denotes (.binary .sub a b) (v - u) := by
  obtain ⟨p, left, values⟩ := ha
  obtain ⟨q, right, values'⟩ := hb
  exact (left.sub right).denotes fun w => by rw [Poly.valueAt_sub, values, values', Pi.sub_apply]

theorem foldl_sub (he : e.Denotes v) (hes : List.Forall₂ Denotes es us) :
    Denotes (es.foldl (.binary .sub) e) (v - us.sum) := by
  induction hes generalizing e v with
  | nil => simpa using he
  | @cons x u xs us first rest ih =>
    rw [List.foldl_cons, List.sum_cons, ← sub_sub]
    exact ih (he.sub first)

theorem joinedTo_add (values : ∀ w, p.valueAt w = v w) (hes : List.Forall₂ Denotes es us) :
    ∃ q, (joinedTo e .add p es).result = .ok q ∧ ∀ w, q.valueAt w = (v + us.sum) w := by
  induction hes generalizing p v with
  | nil => exact ⟨p, rfl, by simpa using values⟩
  | @cons x u xs us first rest ih =>
    obtain ⟨q, converts, values'⟩ := first
    have sum : ∀ w, (p + q).valueAt w = (v + u) w := fun w => by
      rw [Poly.valueAt_add, values, values', Pi.add_apply]
    obtain ⟨r, result, total⟩ := ih sum
    refine ⟨r, Attempt.bind_eq_ok.2 ⟨q, converts, Attempt.bind_eq_ok.2 ⟨p + q, rfl, result⟩⟩, ?_⟩
    rw [List.sum_cons, ← add_assoc]
    exact total

theorem sum (hes : List.Forall₂ Denotes es vs) : Denotes (Expr.sum es) vs.sum := by
  cases hes with
  | nil => exact zero
  | @cons x u xs us first rest =>
    cases rest with
    | nil => simpa [Expr.sum] using first
    | cons second rest =>
      obtain ⟨p, converts, values⟩ := first
      obtain ⟨q, result, total⟩ := joinedTo_add values (.cons second rest)
      exact ⟨q, Attempt.bind_eq_ok.2 ⟨p, converts, result⟩, total⟩

end Denotes

/-- The summand has the value, with its sign. -/
def Summand.Denotes (s : Summand) (v : (Monomial → Rat) → Rat) : Prop :=
  s.magnitude.Denotes (if s.isNegative then -v else v)

theorem Summand.denotes_split {ss : List Summand} (h : List.Forall₂ Summand.Denotes ss vs) :
    ∃ added taken, List.Forall₂ Expr.Denotes (Summand.split ss).1 added ∧
      List.Forall₂ Expr.Denotes (Summand.split ss).2 taken ∧ vs.sum = added.sum - taken.sum := by
  induction h with
  | nil => exact ⟨[], [], .nil, .nil, by simp⟩
  | @cons s v ss vs first rest ih =>
    obtain ⟨added, taken, left, right, total⟩ := ih
    obtain ⟨negative, magnitude⟩ := s
    cases negative with
    | false =>
      refine ⟨v :: added, taken, .cons first left, right, ?_⟩
      rw [List.sum_cons, List.sum_cons, total]
      ring
    | true =>
      refine ⟨added, -v :: taken, left, .cons first right, ?_⟩
      rw [List.sum_cons, List.sum_cons, total]
      ring

theorem denotes_difference {ss : List Summand} (h : List.Forall₂ Summand.Denotes ss vs) :
    Denotes (difference ss) vs.sum := by
  obtain ⟨added, taken, left, right, total⟩ := Summand.denotes_split h
  rw [total, difference]
  split
  · next sides =>
    rw [sides] at left right
    cases left
    cases right
    simpa using Denotes.zero
  · next first rest sides =>
    rw [sides] at left right
    cases left
    cases right with
    | cons negated others => simpa [sub_eq_add_neg, add_comm] using negated.neg.foldl_sub others
  · next sides =>
    rw [sides] at left right
    exact (Denotes.sum left).foldl_sub right

end Expr

/-- Integer coefficients, and powers that conversion multiplies out. -/
@[mk_iff]
structure Poly.Writable (p : Poly) : Prop where
  integers : p.IntegerCoeffs
  powers : ∀ t ∈ p.terms, ∀ f ∈ t.monomial.factors, f.exponent ≤ maxSymbolicExponent

variable {p : Poly}

/-- The atom is converted back. -/
def Atom.Returns (a : Atom) : Prop := a.toExpr.ConvertsTo (.ofAtom a)

theorem Factor.factorsConvert {fs : List Factor} (atoms : ∀ f ∈ fs, f.atom.Returns)
    (positive : ∀ f ∈ fs, 0 < f.exponent) (small : ∀ f ∈ fs, f.exponent ≤ maxSymbolicExponent) :
    Expr.FactorsConvert (Factor.toExprs fs) fs := by
  induction fs with
  | nil => exact .nil
  | cons f fs ih =>
    obtain ⟨a, n⟩ := f
    refine .cons ?_ (ih (fun g mem => atoms g (.tail _ mem)) (fun g mem => positive g (.tail _ mem))
      fun g mem => small g (.tail _ mem))
    exact Expr.convertsTo_factor (atoms _ (.head _)) (positive _ (.head _)) (small _ (.head _))

/-- The value of each term. -/
def Term.values (ts : List Term) : List ((Monomial → Rat) → Rat) :=
  ts.map fun t w => t.coeff * w t.monomial

theorem Term.sum_values (ts : List Term) (w : Monomial → Rat) :
    (Term.values ts).sum w = Poly.valueAt w ⟨ts⟩ := by
  induction ts with
  | nil => rfl
  | cons t ts ih =>
    rw [Term.values, List.map_cons, List.sum_cons, Pi.add_apply, Poly.valueAt, Term.sumAt_cons]
    exact congrArg _ ih

/-- The term as a summand has the value of the term. -/
theorem Expr.denotes_summand {m : Monomial} {c : Rat} (nonzero : c ≠ 0) (integer : c.den = 1)
    (ordered : m.Ordered) (atoms : ∀ f ∈ m.factors, f.atom.Returns)
    (small : ∀ f ∈ m.factors, f.exponent ≤ maxSymbolicExponent) :
    Expr.Summand.Denotes ⟨c < 0, Expr.product (if c < 0 then -c else c) m.factorExprs⟩
      fun w => c * w m := by
  obtain ⟨fs⟩ := m
  have factors := Factor.factorsConvert atoms ordered.exponent_pos small
  have fits : ∀ f ∈ fs, f.exponent < Monomial.exponentLimit :=
    fun f mem => lt_of_le_of_lt (small f mem) (by decide)
  have single (d : Rat) (w : Monomial → Rat) :
      (Poly.ofTerm ⟨fs⟩ d).valueAt w = d * w ⟨fs⟩ := by
    simp [Poly.ofTerm, Poly.valueAt]
  unfold Expr.Summand.Denotes
  by_cases negative : c < 0
  · have converts := Expr.convertsTo_product (neg_pos.2 negative) (by simpa using integer) factors
      ordered fits
    simp only [negative, if_true, decide_true]
    exact converts.denotes fun w => by rw [single, Pi.neg_apply, neg_mul]
  · have positive : 0 < c := lt_of_le_of_ne (not_lt.1 negative) nonzero.symm
    have converts := Expr.convertsTo_product positive integer factors ordered fits
    simp only [negative, if_false, decide_false, Bool.false_eq_true]
    exact converts.denotes (single c)

theorem Poly.denotes_summands (ordered : p.Ordered) (writable : p.Writable)
    (atoms : ∀ a ∈ p.atoms, a.Returns) :
    List.Forall₂ Expr.Summand.Denotes p.summands (Term.values p.terms) := by
  obtain ⟨ts⟩ := p
  obtain ⟨integers, powers⟩ := writable
  induction ts with
  | nil => exact .nil
  | cons t ts ih =>
    obtain ⟨m, c⟩ := t
    obtain ⟨⟨nonzero, monomial, -⟩, rest⟩ := Poly.Ordered.cons_iff.1 ordered
    refine .cons ?_ (ih rest (fun a mem => atoms a (atoms_cons.2 (.inr mem)))
      (fun u mem => integers u (.tail _ mem)) fun u mem => powers u (.tail _ mem))
    exact Expr.denotes_summand nonzero (integers _ (.head _)) monomial
      (fun f mem => atoms _ (atoms_cons.2 (.inl (List.mem_map_of_mem mem)))) (powers _ (.head _))

theorem Poly.convertsTo_of_atoms (ordered : p.Ordered) (writable : p.Writable)
    (atoms : ∀ a ∈ p.atoms, a.Returns) : p.toExpr.ConvertsTo p := by
  have sum := Expr.denotes_difference (Poly.denotes_summands ordered writable atoms)
  obtain ⟨ts⟩ := p
  exact Expr.convertsTo_of_denotes sum ordered fun w => (Term.sum_values ts w).symm

namespace Conversion

theorem argument_of_convertsTo {e a : Expr} {p : Poly} (h : a.ConvertsTo p) :
    (argument e a (term a)).result = .ok (some p) := by
  have result : (term a).result = .ok p := h
  rw [argument, h.isBoolean, result]
  rfl

theorem arguments_of_convertsTo {e : Expr} {as : List Expr} {ps : List Poly}
    (h : List.Forall₂ Expr.ConvertsTo as ps) : (arguments e as).result = .ok (some ps) := by
  induction h with
  | nil => rfl
  | cons first rest ih =>
    rw [arguments]
    exact Attempt.bind_eq_ok.2 ⟨_, argument_of_convertsTo first, Attempt.bind_eq_ok.2 ⟨_, ih, rfl⟩⟩

/-- An application of arguments that are converted is converted, as a number and as a truth value. -/
theorem applyTo_of_convertsTo {head : Head} {args : List Expr} {ps : List Poly}
    (takes : head.Takes ps) (h : List.Forall₂ Expr.ConvertsTo args ps) :
    (head.applyTo args).ConvertsTo (.ofAtom (.app head ps)) ∧
      (formula (head.applyTo args)).result = .ok (.prop (.app head ps)) := by
  have key {e a : Expr} {p : Poly} (converts : a.ConvertsTo p) :
      (application e head (single (argument e a (term a)))).result = .ok (.app head [p]) :=
    Attempt.bind_eq_ok.2 ⟨_, Attempt.bind_eq_ok.2 ⟨_, argument_of_convertsTo converts, rfl⟩, rfl⟩
  cases head with
  | function f =>
    have applied {e : Expr} : (application e (.function f) (arguments e args)).result =
        .ok (.app (.function f) ps) :=
      Attempt.bind_eq_ok.2 ⟨_, arguments_of_convertsTo h, rfl⟩
    exact ⟨Attempt.bind_eq_ok.2 ⟨_, applied, rfl⟩, Attempt.bind_eq_ok.2 ⟨_, applied, rfl⟩⟩
  | index m | indexField m field =>
    obtain ⟨p, rfl⟩ := takes
    cases h with
    | cons converts rest =>
      cases rest
      exact ⟨Attempt.bind_eq_ok.2 ⟨_, key converts, rfl⟩, Attempt.bind_eq_ok.2 ⟨_, key converts, rfl⟩⟩

end Conversion

/-- What is in order, made of its parts and fit to be written. -/
abbrev Poly.Returnable (p : Poly) : Prop := p.Ordered ∧ p.Recurs ∧ p.Writable

theorem Poly.forall₂_toExprs {ps : List Poly} (h : ∀ p ∈ ps, p.toExpr.ConvertsTo p) :
    List.Forall₂ Expr.ConvertsTo (Poly.toExprs ps) ps := by
  induction ps with
  | nil => exact .nil
  | cons p ps ih =>
    obtain ⟨first, rest⟩ := List.forall_mem_cons.1 h
    exact .cons first (ih rest)

theorem Atom.returns {a : Atom} (h : a.Everywhere Poly.Returnable) (recurs : a.Recurs) :
    a.Returns := by
  induction a using Atom.inductionOnPolys with
  | node a ih =>
    have parts : ∀ p ∈ a.polys, p.toExpr.ConvertsTo p := by
      intro p mem
      have every := Atom.everywhere_iff.1 h p mem
      obtain ⟨ordered, made, writable⟩ := every.here
      exact Poly.convertsTo_of_atoms ordered writable fun b inside =>
        ih p mem b inside (every.atom inside) (made b inside)
    cases a with
    | symbol name => rfl
    | app head ps => exact (applyTo_of_convertsTo recurs (Poly.forall₂_toExprs parts)).1
    | quot p q =>
      exact Attempt.bind_eq_ok.2 ⟨p, parts p (.head _), Attempt.bind_eq_ok.2
        ⟨q, parts q (.tail _ (.head _)), recurs _⟩⟩
    | rem p q =>
      exact Attempt.bind_eq_ok.2 ⟨p, parts p (.head _), Attempt.bind_eq_ok.2
        ⟨q, parts q (.tail _ (.head _)), recurs _⟩⟩
    | verbatim e => exact recurs

/-- The tree of a polynomial is converted to it. -/
theorem Poly.convertsTo_toExpr (h : p.Everywhere Poly.Returnable) : p.toExpr.ConvertsTo p := by
  obtain ⟨ordered, recurs, writable⟩ := h.here
  exact Poly.convertsTo_of_atoms ordered writable fun a mem =>
    Atom.returns (h.atom mem) (recurs a mem)

end PredicateStrength
