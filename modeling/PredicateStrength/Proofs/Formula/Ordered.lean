import Mathlib
import PredicateStrength.Proofs.Expr.Numerals
import PredicateStrength.Proofs.Formula.OfExpr

/-!
# Conversion keeps everything in order

Whatever the sorts of a tree are, the polynomials that conversion makes are in order, also inside
atoms, and those of constraints have integer coefficients. Coefficients inside atoms can be
fractions: `f(x / 2)` has none, `f(1.5 * x)` has.

Main statements: `Conversion.wellFormed_term` and `Conversion.tidy_formula`.
-/
namespace PredicateStrength

namespace Poly

variable {p q r : Poly}

theorem Everywhere.of_atoms {P : Poly → Prop} (hp : p.Everywhere P) (hq : q.Everywhere P)
    (here : P r) (atoms : ∀ a ∈ r.atoms, a ∈ p.atoms ∨ a ∈ q.atoms) : r.Everywhere P :=
  everywhere_iff.2 ⟨here, fun a ha => (atoms a ha).elim hp.atom hq.atom⟩

theorem everywhere_ofAtom {P : Poly → Prop} {a : Atom} (here : P (ofAtom a))
    (inside : a.Everywhere P) : (ofAtom a).Everywhere P :=
  everywhere_iff.2 ⟨here, by simpa using inside⟩

/-- In order, of atoms that are. -/
theorem WellFormed.of_atoms (hp : p.WellFormed) (hq : q.WellFormed) (ordered : r.Ordered)
    (atoms : ∀ a ∈ r.atoms, a ∈ p.atoms ∨ a ∈ q.atoms) : r.WellFormed :=
  Everywhere.of_atoms hp hq ordered atoms

theorem wellFormed_ofAtom {a : Atom} (h : a.Everywhere Ordered) : (ofAtom a).WellFormed :=
  everywhere_ofAtom (ordered_ofAtom a) h

theorem wellFormed_const (c : Rat) : (const c).WellFormed :=
  everywhere_iff.2 ⟨ordered_const c, by simp⟩

theorem WellFormed.neg (hp : p.WellFormed) : (-p).WellFormed :=
  hp.of_atoms hp hp.here.neg fun _ ha => .inl (atoms_neg ha)

end Poly

namespace Conversion

variable {e : Expr} {p q r : Poly}

/-- What an operation on `p` and `q`, which `e` stands for, leaves of them. Quotients and remainders
are left because dividing did no better, whatever tree is divided. -/
inductive Operation (e : Expr) (p q : Poly) : Poly → Prop
  | sum : Operation e p q (p + q)
  | difference : Operation e p q (p - q)
  | product : Operation e p q (p * q)
  | power (n : Nat) : Operation e p q (p.pow n)
  | integer (n : Int) : Operation e p q (.const n)
  | fraction {n d : Rat} (dividend : p.constant? = some n) (divisor : q.constant? = some d)
    (uneven : ¬(n.den = 1 ∧ d.den = 1)) : Operation e p q (.const (n / d))
  | scaled {d : Rat} (nonzero : d ≠ 0) (even : d.den = 1 ∧ p.divisibleBy d.num) :
    Operation e p q (p.scale d⁻¹)
  | quotient (divides : ∀ c, (divide c p q).result = .ok (.ofAtom (.quot p q))) :
    Operation e p q (.ofAtom (.quot p q))
  | remainder (divides : ∀ c, (remainder c p q).result = .ok (.ofAtom (.rem p q))) :
    Operation e p q (.ofAtom (.rem p q))
  | kept : Operation e p q (.ofAtom (.verbatim e))

theorem operation_of_verbatim {reason : String}
    (h : ((return .ofAtom (← verbatim e reason) : Attempt Poly)).result = .ok r) :
    Operation e p q r := by
  cases h
  exact .kept

theorem operation_of_divide (h : (divide e p q).result = .ok r) : Operation e p q r := by
  unfold divide at h
  split at h
  · next unknown =>
    cases h
    exact .quotient fun c => by simp [divide, unknown]
  · next d divisor =>
    split at h
    · exact operation_of_verbatim h
    · next nonzero =>
      split at h
      · next n dividend =>
        split at h <;> cases h
        · exact .integer _
        · next uneven => exact .fraction dividend divisor uneven
      · next unknown =>
        split at h <;> cases h
        · next even => exact .scaled nonzero even
        · next uneven =>
          exact .quotient fun c => by simp [divide, divisor, nonzero, unknown, uneven]

theorem operation_of_remainder (h : (remainder e p q).result = .ok r) : Operation e p q r := by
  unfold remainder at h
  split at h
  · next d divisor =>
    split at h
    · exact operation_of_verbatim h
    · next nonzero =>
      split at h
      · cases h
        exact .integer _
      · next unknown =>
        split at h <;> cases h
        · have zero : Poly.zero = .const ((0 : Int) : Rat) := by simp [Poly.const]
          exact zero ▸ .integer 0
        · next other =>
          exact .remainder fun c => by simp [remainder, divisor, nonzero, unknown, other]
  · next unknown =>
    cases h
    exact .remainder fun c => by simp [remainder, unknown]

theorem operation_of_power (h : (power e p q).result = .ok r) : Operation e p q r := by
  unfold power at h
  dsimp only at h
  generalize (if p.constant?.isSome = true then maxConstantExponent else maxSymbolicExponent) =
    limit at h
  split at h
  · split at h
    · rw [Poly.eq_pow_of_pow? (orOverflow_eq_ok.1 h)]
      exact .power _
    · exact operation_of_verbatim h
  · exact operation_of_verbatim h

theorem operation_of_bitwise {o : Operator} (h : (bitwise e o p q).result = .ok r) :
    Operation e p q r := by
  unfold bitwise at h
  split at h
  · split at h
    · cases h
      exact Int.cast_natCast (R := Rat) _ ▸ .integer _
    · exact operation_of_verbatim h
  · exact operation_of_verbatim h

theorem operation_of_arithmetic {o : Operator} (h : (arithmetic e o p q).result = .ok r) :
    Operation e p q r := by
  cases o
  case add =>
    cases h
    exact .sum
  case sub =>
    cases h
    exact .difference
  case mul =>
    rw [Poly.eq_mul_of_mul? (orOverflow_eq_ok.1 h)]
    exact .product
  case div => exact operation_of_divide h
  case mod => exact operation_of_remainder h
  case pow => exact operation_of_power h
  case bitAnd | bitOr | bitXor => exact operation_of_bitwise h
  all_goals cases h

/-- What is inside the atoms of the outcome is inside those of `p` and `q`, or is `p` or `q`. -/
theorem Operation.everywhere {P : Poly → Prop} (h : Operation e p q r) (hp : p.Everywhere P)
    (hq : q.Everywhere P) (here : P r) : r.Everywhere P := by
  cases h with
  | sum => exact .of_atoms hp hq here fun _ => Poly.atoms_add
  | difference => exact .of_atoms hp hq here fun _ => Poly.atoms_sub
  | product => exact .of_atoms hp hq here fun _ => Poly.atoms_mul
  | power => exact .of_atoms hp hp here fun _ ha => .inl (Poly.atoms_pow ha)
  | integer | fraction => exact Poly.everywhere_iff.2 ⟨here, by simp⟩
  | scaled => exact .of_atoms hp hp here fun _ ha => .inl (Poly.atoms_scale ha)
  | quotient | remainder => exact Poly.everywhere_ofAtom here ⟨hp, hq⟩
  | kept => exact Poly.everywhere_ofAtom here trivial

theorem Operation.ordered (h : Operation e p q r) (hp : p.Ordered) (hq : q.Ordered) :
    r.Ordered := by
  cases h with
  | sum => exact hp.add hq
  | difference => exact hp.sub hq
  | product => exact hp.mul hq
  | power n => exact hp.pow n
  | integer | fraction => exact Poly.ordered_const _
  | scaled => exact hp.scale _
  | quotient | remainder | kept => exact Poly.ordered_ofAtom _

theorem wellFormed_arithmetic {o : Operator} (hp : p.WellFormed) (hq : q.WellFormed)
    (h : (arithmetic e o p q).result = .ok r) : r.WellFormed :=
  have operation := operation_of_arithmetic h
  operation.everywhere hp hq (operation.ordered hp.here hq.here)

theorem wellFormed_numeral {digits : String} (h : (numeral e digits).result = .ok r) :
    r.WellFormed := by
  unfold numeral at h
  split at h <;> cases h
  · exact Poly.wellFormed_const _
  · exact Poly.wellFormed_ofAtom trivial

/-- Conversion keeps `P`, in polynomials and inside their atoms, if the numerals satisfy `N`. -/
structure Keeps (N : String → Prop) (P : Poly → Prop) : Prop where
  zero : P .zero
  ofAtom : ∀ a, P (.ofAtom a)
  numeral : ∀ {e : Expr} {digits : String} {p : Poly}, N digits →
    (numeral e digits).result = .ok p → p.Everywhere P
  neg : ∀ {p : Poly}, p.Everywhere P → (-p).Everywhere P
  arithmetic : ∀ {e : Expr} {o : Operator} {p q r : Poly}, p.Everywhere P → q.Everywhere P →
    (arithmetic e o p q).result = .ok r → r.Everywhere P

theorem IsApplication.numerals {Q N : String → Prop} {head : Head} {args : List Expr}
    (h : IsApplication e head args) (numerals : e.Numerals Q N) :
    ∀ a ∈ args, a.Numerals Q Q := by
  cases h with
  | call => exact Expr.numeralsAll_iff.1 numerals.2
  | index | indexField => exact List.forall_mem_singleton.2 numerals.2

section Keeps

variable {N : String → Prop} {P : Poly → Prop}

theorem everywhere_access {a : Atom}
    (h : Access (fun c p => c.Numerals N N → p.Everywhere P) e a) (numerals : e.Numerals N N) :
    a.Everywhere P := by
  cases h with
  | application shape operands =>
    exact Poly.everywhereAll_iff.2
      (forall_right operands fun c mem _ kept => kept (shape.numerals numerals c mem))
  | _ => trivial

theorem termCases_everywhere (keeps : Keeps N P) :
    TermCases fun e p => e.Numerals N N → p.Everywhere P where
  name _ _ := Poly.everywhere_ofAtom (keeps.ofAtom _) trivial
  numeral result numerals := keeps.numeral numerals result
  neg operand numerals := keeps.neg (operand numerals)
  access access _ numerals :=
    Poly.everywhere_ofAtom (keeps.ofAtom _) (everywhere_access access numerals)
  empty _ _ := Poly.everywhere_iff.2 ⟨keeps.zero, by simp⟩
  joined _ first rest result numerals := by
    rw [Expr.numerals_op, ite_self] at numerals
    obtain ⟨here, others⟩ := List.forall_mem_cons.1 numerals
    exact foldlM_keeps (forall_right rest fun a mem _ kept => kept (others a mem)) keeps.arithmetic
      (first here) result
  pair _ left right result _ numerals := by
    rw [Expr.Numerals, ite_self] at numerals
    exact keeps.arithmetic (left numerals.1) (right numerals.2.1) result

/-- What conversion keeps holds of the polynomial of a tree, also inside its atoms. -/
theorem everywhere_term (keeps : Keeps N P) {e : Expr} {p : Poly} (numerals : e.Numerals N N)
    (h : (term e).result = .ok p) : p.Everywhere P := (termCases_everywhere keeps).term h numerals

end Keeps

theorem keeps_ordered : Keeps (fun _ => True) Poly.Ordered where
  zero := Poly.ordered_zero
  ofAtom := Poly.ordered_ofAtom
  numeral _ := wellFormed_numeral
  neg := Poly.WellFormed.neg
  arithmetic := wellFormed_arithmetic

/-- The polynomial of a tree is in order, also inside its atoms. -/
theorem wellFormed_term {e : Expr} {p : Poly} (h : (term e).result = .ok p) : p.WellFormed :=
  everywhere_term keeps_ordered (Expr.numerals_of_forall (fun _ => trivial) e) h

end Conversion

/-- In order, also inside the atoms, with integer coefficients. -/
structure Poly.Tidy (p : Poly) : Prop where
  wellFormed : p.WellFormed
  integers : p.IntegerCoeffs

namespace Conversion

theorem tidy_ofComparison {o : Operator} {p q : Poly} (hp : p.WellFormed) (hq : q.WellFormed) :
    (Constraint.ofComparison o p q).Over Poly.Tidy :=
  Constraint.over_ofComparison hp.here hq.here fun _ ordered ints atoms =>
    ⟨hp.of_atoms hq ordered atoms, ints⟩

/-- The polynomial is that of a tree whose numerals satisfy `N`. -/
def OfTree (N : String → Prop) (p : Poly) : Prop :=
  ∃ e : Expr, e.Numerals N N ∧ (term e).result = .ok p

/-- `M` holds of the formulas that conversion makes, if the numerals satisfy `N`. -/
structure Builds (N : String → Prop) (M : Formula → Prop) : Prop where
  const : ∀ b, M (.const b)
  prop : ∀ {a : Atom}, (∀ p ∈ a.polys, OfTree N p) → M (.prop a)
  comparison : ∀ {o : Operator} {p q : Poly}, OfTree N p → OfTree N q →
    M (Constraint.ofComparison o p q)
  not : ∀ {f : Formula}, M f → M (.not f)
  and : ∀ {fs : List Formula}, (∀ f ∈ fs, M f) → M (.and fs)
  or : ∀ {fs : List Formula}, (∀ f ∈ fs, M f) → M (.or fs)

section Builds

variable {N : String → Prop} {M : Formula → Prop}

theorem Builds.agreement (builds : Builds N M) {f g : Formula} (hf : M f) (hg : M g) :
    M (agreement f g) := by
  have both : M (.and [f, g]) := builds.and (by simp [hf, hg])
  have neither : M (.and [.not f, .not g]) := builds.and (by simp [builds.not hf, builds.not hg])
  exact builds.or (by simp [both, neither])

theorem ofTree_access {a : Atom} (h : Access IsTerm e a) (numerals : e.Numerals N N) :
    ∀ p ∈ a.polys, OfTree N p := by
  cases h with
  | application shape operands =>
    exact forall_right operands fun c mem _ result => ⟨c, shape.numerals numerals c mem, result⟩
  | _ => nofun

theorem formulaCases_builds (builds : Builds N M) :
    FormulaCases fun e f => e.Numerals N N → M f where
  name _ _ := builds.prop nofun
  const b _ := builds.const b
  not operand numerals := builds.not (operand numerals)
  access access _ numerals := builds.prop (ofTree_access access numerals)
  and operands numerals :=
    builds.and (forall_right operands fun e mem _ kept => kept (Expr.numerals_op.1 numerals e mem))
  or operands numerals :=
    builds.or (forall_right operands fun e mem _ kept => kept (Expr.numerals_op.1 numerals e mem))
  equality _ _ left right numerals := by
    rw [Expr.Numerals, ite_self] at numerals
    have same := builds.agreement (left numerals.1) (right numerals.2.1)
    split
    · exact same
    · exact builds.not same
  comparison _ left right numerals := by
    rw [Expr.Numerals, ite_self] at numerals
    exact builds.comparison ⟨_, numerals.1, left⟩ ⟨_, numerals.2.1, right⟩

/-- What holds of the formulas that conversion makes holds of a tree's formula. -/
theorem formula_of_builds (builds : Builds N M) {e : Expr} {f : Formula}
    (numerals : e.Numerals N N) (h : (formula e).result = .ok f) : M f :=
  (formulaCases_builds builds).formula h numerals

end Builds

theorem builds_tidy : Builds (fun _ => True) (Formula.Over Poly.Tidy) where
  const _ := trivial
  prop _ := trivial
  comparison := fun ⟨_, _, left⟩ ⟨_, _, right⟩ =>
    tidy_ofComparison (wellFormed_term left) (wellFormed_term right)
  not := id
  and every := Formula.overAll_iff.2 every
  or every := Formula.overAll_iff.2 every

/-- The polynomials of the constraints of a tree's formula are tidy. -/
theorem tidy_formula {e : Expr} {f : Formula} (h : (formula e).result = .ok f) :
    f.Over Poly.Tidy :=
  formula_of_builds builds_tidy (Expr.numerals_of_forall (fun _ => trivial) e) h

/-- The formula of a tree is well formed. -/
theorem wellFormed_formula {e : Expr} {f : Formula} (h : (formula e).result = .ok f) :
    f.WellFormed := Formula.over_mono (fun _ tidy => tidy.wellFormed) (tidy_formula h)

end Conversion
end PredicateStrength
