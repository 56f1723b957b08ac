import Mathlib
import PredicateStrength.Formula.ToExpr
import PredicateStrength.Proofs.Expr.World
import PredicateStrength.Proofs.Formula.Truth

/-!
# The meaning of decoded formulas

A world gives every atom a value: to a name and an application what stands at its place, to a
quotient and a remainder the value of the division, to a kept tree the value of the tree. With
these values a polynomial has the value of the tree that it is decoded to, whatever the signs of
its terms are, and a formula is true where its tree is. Coefficients have to be integers, since a
fraction is written as a division, which rounds.

Main statements: `Atom.eval_toExpr`, `Poly.number_toExpr`, `Constraint.truth_toExpr`,
`Formula.truth_toExpr`.
-/
namespace PredicateStrength

variable {W : World}

namespace World

theorem number_sum (es : List Expr) : (W.eval (.sum es)).number = (W.numbers es).sum := by
  match es with
  | [] => exact W.number_numeral 0
  | [e] => simp [Expr.sum]
  | _ :: _ :: _ => rfl

theorem number_product {c : ℚ} (integer : c.den = 1) (nonneg : 0 ≤ c) (es : List Expr) :
    (W.eval (.product c es)).number = c.num * (W.numbers es).prod := by
  have scaled : (W.numbers (if c.num = 1 then es else .num (toString c.num) :: es)).prod =
      c.num * (W.numbers es).prod := by
    split
    · next one => rw [one, one_mul]
    · obtain ⟨k, numerator⟩ := Int.eq_ofNat_of_zero_le (Rat.num_nonneg.2 nonneg)
      have digits : toString c.num = toString k := by
        rw [numerator]
        rfl
      rw [digits, numbers_cons, List.prod_cons, number_numeral, numerator]
  unfold Expr.product
  split
  · next empty =>
    rw [List.isEmpty_iff.1 empty, numbers_nil, List.prod_nil, mul_one, number_ofRat W integer]
  · rw [← scaled]
    generalize (if c.num = 1 then es else .num (toString c.num) :: es) = factors
    match factors with
    | [] => rfl
    | [e] => simp
    | _ :: _ :: _ => rfl

theorem number_foldl_sub (e : Expr) (es : List Expr) :
    (W.eval (es.foldl (.binary .sub) e)).number = (W.eval e).number - (W.numbers es).sum := by
  induction es generalizing e with
  | nil => simp
  | cons f fs ih =>
    rw [List.foldl_cons, ih, numbers_cons, List.sum_cons]
    show (W.eval e).number - (W.eval f).number - _ = _
    ring

/-- A summand, negative if it is taken away. -/
def signed (W : World) (s : Expr.Summand) : Int :=
  if s.isNegative then -(W.eval s.magnitude).number else (W.eval s.magnitude).number

theorem sum_split (ss : List Expr.Summand) :
    (W.numbers (Expr.Summand.split ss).1).sum - (W.numbers (Expr.Summand.split ss).2).sum =
      (ss.map W.signed).sum := by
  induction ss with
  | nil => rfl
  | cons s ss ih =>
    obtain ⟨negative, magnitude⟩ := s
    rw [List.map_cons, List.sum_cons, ← ih]
    cases negative with
    | true =>
      have sides : Expr.Summand.split (⟨true, magnitude⟩ :: ss) =
          ((Expr.Summand.split ss).1, magnitude :: (Expr.Summand.split ss).2) := rfl
      have sign : W.signed ⟨true, magnitude⟩ = -(W.eval magnitude).number := rfl
      rw [sides, sign, numbers_cons, List.sum_cons]
      ring
    | false =>
      have sides : Expr.Summand.split (⟨false, magnitude⟩ :: ss) =
          (magnitude :: (Expr.Summand.split ss).1, (Expr.Summand.split ss).2) := rfl
      have sign : W.signed ⟨false, magnitude⟩ = (W.eval magnitude).number := rfl
      rw [sides, sign, numbers_cons, List.sum_cons]
      ring

theorem number_difference (ss : List Expr.Summand) :
    (W.eval (.difference ss)).number = (ss.map W.signed).sum := by
  rw [← sum_split, Expr.difference]
  split
  · next sides =>
    rw [sides]
    exact W.number_numeral 0
  · next first rest sides =>
    rw [sides, number_foldl_sub, numbers_nil, List.sum_nil, numbers_cons, List.sum_cons]
    show -(W.eval first).number - _ = _
    ring
  · next added taken _ _ sides => rw [sides, number_foldl_sub, number_sum]

/-- Operands joined by `&&`. -/
theorem truth_junction_and (es : List Expr) :
    (W.eval (.junction .and es)).truth = es.all fun e => (W.eval e).truth := by
  match es with
  | [] => rfl
  | [e] => simp [Expr.junction]
  | e :: f :: es =>
    show (W.evalAll (e :: f :: es)).all Reading.truth = _
    rw [evalAll_eq_map, List.all_map]
    rfl

/-- Operands joined by `||`. -/
theorem truth_junction_or (es : List Expr) :
    (W.eval (.junction .or es)).truth = es.any fun e => (W.eval e).truth := by
  match es with
  | [] => rfl
  | [e] => simp [Expr.junction]
  | e :: f :: es =>
    show (W.evalAll (e :: f :: es)).any Reading.truth = _
    rw [evalAll_eq_map, List.any_map]
    rfl

end World

/-- The place of an application. An index read has one key; of several the last one counts. -/
def Head.place (args : List Int) : Head → Place Int
  | .function name => .call (.name name) (args.map .num)
  | .index name => .index (.name name) (.num (args.getLast?.getD 0))
  | .indexField name field => .member (.index (.name name) (.num (args.getLast?.getD 0))) field

mutual
/-- What an atom stands for in a world. -/
def Atom.reading (W : World) : Atom → Reading
  | .symbol name => W.readAt (.name name)
  | .app head args => W.readAt (head.place (Poly.wholes W args))
  | .quot p q => .ofNumber ((p.whole W).tdiv (q.whole W))
  | .rem p q => .ofNumber ((p.whole W).tmod (q.whole W))
  | .verbatim e => W.eval e

def Factor.worth (W : World) : List Factor → Int
  | [] => 1
  | ⟨a, n⟩ :: fs => (a.reading W).number ^ n * Factor.worth W fs

def Monomial.worth (W : World) : Monomial → Int
  | ⟨fs⟩ => Factor.worth W fs

def Term.worth (W : World) : List Term → ℚ
  | [] => 0
  | ⟨m, c⟩ :: ts => c * m.worth W + Term.worth W ts

/-- The value of a polynomial, rounded down. -/
def Poly.whole (W : World) : Poly → Int
  | ⟨ts⟩ => ⌊Term.worth W ts⌋

def Poly.wholes (W : World) : List Poly → List Int
  | [] => []
  | p :: ps => p.whole W :: Poly.wholes W ps
end

/-- The truth values and numbers of atoms in a world. -/
def World.valuation (W : World) : Valuation where
  truth a := (a.reading W).truth
  number a := (a.reading W).number

theorem Factor.worth_eq_value (fs : List Factor) :
    Factor.worth W fs = (Monomial.mk fs).value W.valuation.number := by
  induction fs with
  | nil => rfl
  | cons f fs ih =>
    obtain ⟨a, n⟩ := f
    rw [Factor.worth, ih, Monomial.value, Monomial.value, List.map_cons, List.prod_cons]
    rfl

theorem Term.worth_eq_sum (ts : List Term) :
    Term.worth W ts = Term.sum W.valuation.number ts := by
  induction ts with
  | nil => rfl
  | cons t ts ih =>
    obtain ⟨⟨fs⟩, c⟩ := t
    rw [Term.worth, ih, Term.sum_cons, Monomial.worth, Factor.worth_eq_value]

/-- A polynomial with an integer value has that number. -/
theorem Poly.whole_of_value {p : Poly} {n : Int} (h : W.valuation.value p = n) :
    p.whole W = n := by
  obtain ⟨ts⟩ := p
  have worth : Term.worth W ts = n := (Term.worth_eq_sum ts).trans h
  rw [Poly.whole, worth, Int.floor_intCast]

/-- The tree of the atom has the value of the atom. -/
def Atom.Decodes (W : World) (a : Atom) : Prop := W.eval a.toExpr = a.reading W

theorem Factor.prod_numbers {fs : List Factor} (atoms : ∀ f ∈ fs, f.atom.Decodes W) :
    (W.numbers (Factor.toExprs fs)).prod = (Monomial.mk fs).value W.valuation.number := by
  induction fs with
  | nil => rfl
  | cons f fs ih =>
    obtain ⟨a, n⟩ := f
    obtain ⟨first, rest⟩ := List.forall_mem_cons.1 atoms
    have base : (W.eval a.toExpr).number = W.valuation.number a := congrArg Reading.number first
    have power : (W.eval (if n = 1 then a.toExpr
        else .binary .pow a.toExpr (.num (toString n)))).number = W.valuation.number a ^ n := by
      split
      · next one => rw [one, pow_one, base]
      · show W.arith .pow (W.eval a.toExpr).number (W.eval (.num (toString n))).number = _
        rw [W.number_numeral, base, World.arith_pow]
    rw [Factor.toExprs, World.numbers_cons, List.prod_cons, power, ih rest]
    rfl

theorem World.signed_product {c : ℚ} (integer : c.den = 1) (es : List Expr) :
    (W.signed ⟨c < 0, .product (if c < 0 then -c else c) es⟩ : ℚ) = c * (W.numbers es).prod := by
  obtain ⟨k, rfl⟩ := Poly.den_eq_one_iff_exists.1 integer
  unfold signed
  by_cases negative : (k : ℚ) < 0
  · have magnitude := number_product (W := W) (c := -(k : ℚ)) (by simp) (by linarith) es
    simp [negative, magnitude]
  · have magnitude := number_product (W := W) integer (by linarith) es
    simp [negative, magnitude]

theorem Term.sum_summands {ts : List Term} (integers : ∀ t ∈ ts, t.coeff.den = 1)
    (atoms : ∀ t ∈ ts, ∀ f ∈ t.monomial.factors, f.atom.Decodes W) :
    (((Term.summands ts).map W.signed).sum : ℚ) = Term.sum W.valuation.number ts := by
  induction ts with
  | nil => rfl
  | cons t ts ih =>
    obtain ⟨⟨fs⟩, c⟩ := t
    obtain ⟨integer, integers⟩ := List.forall_mem_cons.1 integers
    obtain ⟨first, rest⟩ := List.forall_mem_cons.1 atoms
    rw [Term.summands, List.map_cons, List.sum_cons, Int.cast_add, ih integers rest,
      World.signed_product integer, Monomial.factorExprs, Factor.prod_numbers first, Term.sum_cons]

/-- The tree of a polynomial has its value, if the trees of its atoms have theirs. -/
theorem Poly.number_toExpr_of_atoms {p : Poly} (integers : p.IntegerCoeffs)
    (atoms : ∀ a ∈ p.atoms, a.Decodes W) :
    ((W.eval p.toExpr).number : ℚ) = W.valuation.value p := by
  obtain ⟨ts⟩ := p
  rw [Poly.toExpr, World.number_difference]
  refine Term.sum_summands integers fun t term f factor => atoms f.atom ?_
  exact List.mem_flatMap.2 ⟨t, term, List.mem_map_of_mem factor⟩

theorem Poly.number_toExpr_eq_whole {p : Poly} (integers : p.IntegerCoeffs)
    (atoms : ∀ a ∈ p.atoms, a.Decodes W) : (W.eval p.toExpr).number = p.whole W :=
  (Poly.whole_of_value (number_toExpr_of_atoms integers atoms).symm).symm

theorem World.eval_applyTo (head : Head) (es : List Expr) :
    W.eval (head.applyTo es) = W.readAt (head.place (W.numbers es)) := by
  have last : (W.eval (es.getLast?.getD (.num "0"))).number = (W.numbers es).getLast?.getD 0 := by
    rw [World.numbers, World.evalAll_eq_map, List.getLast?_map, List.getLast?_map]
    cases es.getLast? with
    | none => exact W.number_numeral 0
    | some e => rfl
  cases head with
  | function name =>
    show W.readAt (.call (.name name) ((W.evalAll es).map fun r => .num r.number)) = _
    rw [Head.place, World.numbers, List.map_map]
    rfl
  | index name =>
    show W.readAt (.index (.name name) (.num (W.eval (es.getLast?.getD (.num "0"))).number)) = _
    rw [last, Head.place]
  | indexField name field =>
    show W.readAt (.member (.index (.name name)
      (.num (W.eval (es.getLast?.getD (.num "0"))).number)) field) = _
    rw [last, Head.place]

theorem Poly.numbers_toExprs {ps : List Poly}
    (same : ∀ p ∈ ps, (W.eval p.toExpr).number = p.whole W) :
    W.numbers (Poly.toExprs ps) = Poly.wholes W ps := by
  induction ps with
  | nil => rfl
  | cons p ps ih =>
    obtain ⟨first, rest⟩ := List.forall_mem_cons.1 same
    rw [Poly.toExprs, World.numbers_cons, first, ih rest, Poly.wholes]

/-- The tree of an atom has its value. -/
theorem Atom.eval_toExpr (a : Atom) : a.Everywhere Poly.IntegerCoeffs →
    W.eval a.toExpr = a.reading W := by
  induction a using Atom.inductionOnPolys with
  | node a ih =>
    intro integers
    have inside : ∀ p ∈ a.polys, (W.eval p.toExpr).number = p.whole W := by
      intro p mem
      have everywhere := Atom.everywhere_iff.1 integers p mem
      exact Poly.number_toExpr_eq_whole everywhere.here fun b atom =>
        ih p mem b atom (everywhere.atom atom)
    cases a with
    | symbol name => rfl
    | verbatim e => rfl
    | app head ps =>
      have arguments : W.numbers (Poly.toExprs ps) = Poly.wholes W ps :=
        Poly.numbers_toExprs inside
      rw [Atom.toExpr, World.eval_applyTo, arguments, Atom.reading]
    | quot p q =>
      show Reading.ofNumber ((W.eval p.toExpr).number.tdiv (W.eval q.toExpr).number) = _
      rw [inside p (by simp [Atom.polys]), inside q (by simp [Atom.polys]), Atom.reading]
    | rem p q =>
      show Reading.ofNumber ((W.eval p.toExpr).number.tmod (W.eval q.toExpr).number) = _
      rw [inside p (by simp [Atom.polys]), inside q (by simp [Atom.polys]), Atom.reading]

theorem Poly.number_toExpr {p : Poly} (integral : p.Integral) :
    ((W.eval p.toExpr).number : ℚ) = W.valuation.value p :=
  number_toExpr_of_atoms integral.here fun a mem => Atom.eval_toExpr a (integral.atom mem)

/-- A comparison depends on the difference of its sides alone. -/
theorem relate_of_sub_eq {o : Operator} {m n m' n' : Int} (h : m - n = m' - n') :
    relate o m n = relate o m' n' := by
  cases o <;> simp only [relate, decide_eq_decide] <;> omega

namespace Constraint

/-- The sides of a comparison differ by the polynomial less the bound, whichever terms and
whichever sign of the bound are on which side. -/
theorem truth_comparisonExpr {o : Operator} {p : Poly} {n : Int}
    (relational : o.isRelational = true) (integral : p.Integral)
    (value : W.valuation.value p = n) (v : Int) :
    (W.eval (comparisonExpr o p v)).truth = relate o n v := by
  have total : (W.numbers (Expr.Summand.split p.summands).1).sum -
      (W.numbers (Expr.Summand.split p.summands).2).sum = n := by
    have number := Poly.number_toExpr (W := W) integral
    obtain ⟨ts⟩ := p
    rw [Poly.toExpr, World.number_difference, value, Int.cast_inj] at number
    exact (World.sum_split _).trans number
  have sides (a b : Expr) :
      (W.eval (.binary o a b)).truth = relate o (W.eval a).number (W.eval b).number := by
    cases o <;> first | rfl | cases relational
  unfold comparisonExpr
  simp only [sides, World.number_sum]
  apply relate_of_sub_eq
  rw [← total]
  rcases lt_trichotomy v 0 with negative | rfl | positive
  · rw [if_pos negative, if_neg (by omega), World.numbers_append, List.sum_append,
      World.numbers_cons, World.number_ofInt]
    simp
    ring
  · simp
  · rw [if_neg (by omega), if_pos positive, World.numbers_append, List.sum_append,
      World.numbers_cons, World.number_ofInt]
    simp
    ring

theorem truth_toExpr {c : Constraint} (integral : c.poly.Integral) :
    (W.eval c.toExpr).truth = true ↔ c.Holds W.valuation := by
  obtain ⟨p, bound⟩ := c
  obtain ⟨n, value⟩ : ∃ n : Int, W.valuation.value p = n :=
    integral.here.value_eq_int W.valuation.number
  have comparison {o : Operator} (relational : o.isRelational = true) (v : Int) :=
    truth_comparisonExpr relational integral value v
  have below (l : Int) : (W.eval (comparisonExpr .ge p l)).truth = true ↔ l ≤ n := by
    rw [truth_comparisonExpr rfl integral value]
    exact decide_eq_true_iff
  have above (h : Int) : (W.eval (comparisonExpr .le p h)).truth = true ↔ n ≤ h := by
    rw [truth_comparisonExpr rfl integral value]
    exact decide_eq_true_iff
  rw [Holds, value]
  match bound with
  | .ne v =>
    show (W.eval (comparisonExpr .ne p v)).truth = true ↔ (n : ℚ) ≠ v
    rw [truth_comparisonExpr rfl integral value, Ne, Int.cast_inj]
    exact decide_eq_true_iff
  | .range none none => simp [toExpr, World.truth_junction_and, Bound.Admits]
  | .range (some l) none => simp [toExpr, World.truth_junction_and, Bound.Admits, below]
  | .range none (some h) => simp [toExpr, World.truth_junction_and, Bound.Admits, above]
  | .range (some l) (some h) =>
    have admits : (Bound.range (some l) (some h)).Admits n ↔ l ≤ n ∧ n ≤ h := by
      simp [Bound.Admits]
    rw [admits]
    by_cases point : l = h
    · subst point
      have tree : toExpr ⟨p, .range (some l) (some l)⟩ = comparisonExpr .eq p l := if_pos rfl
      rw [tree, truth_comparisonExpr rfl integral value, relate, decide_eq_true_iff]
      omega
    · have tree : toExpr ⟨p, .range (some l) (some h)⟩ =
          .junction .and [comparisonExpr .ge p l, comparisonExpr .le p h] := if_neg point
      rw [tree, World.truth_junction_and]
      simp [below, above]

end Constraint

namespace Formula

mutual
/-- `P` holds of every polynomial in the formula, also inside the atoms of polynomials and of
propositions. -/
def Everywhere (P : Poly → Prop) : Formula → Prop
  | .const _ => True
  | .prop a => a.Everywhere P
  | .constraint c => c.poly.Everywhere P
  | .not f => f.Everywhere P
  | .and fs => EverywhereAll P fs
  | .or fs => EverywhereAll P fs

def EverywhereAll (P : Poly → Prop) : List Formula → Prop
  | [] => True
  | f :: fs => f.Everywhere P ∧ EverywhereAll P fs
end

theorem everywhereAll_iff {P : Poly → Prop} {fs : List Formula} :
    EverywhereAll P fs ↔ ∀ f ∈ fs, f.Everywhere P := by
  induction fs with
  | nil => simp [EverywhereAll]
  | cons f fs ih => simp [EverywhereAll, ih]

theorem toExprs_eq_map (fs : List Formula) : toExprs fs = fs.map toExpr := by
  induction fs with
  | nil => rfl
  | cons f fs ih => rw [toExprs, ih, List.map_cons]

mutual
theorem truth_toExpr : ∀ {f : Formula}, f.Everywhere Poly.IntegerCoeffs →
    ((W.eval f.toExpr).truth = true ↔ f.Holds W.valuation)
  | .const b, _ => Iff.rfl
  | .prop a, integers => by
    rw [toExpr, Atom.eval_toExpr a integers]
    rfl
  | .constraint c, integers => Constraint.truth_toExpr integers
  | .not f, integers => by
    have operand := truth_toExpr (f := f) integers
    show (!(W.eval f.toExpr).truth) = true ↔ ¬f.Holds W.valuation
    rw [← operand, Bool.not_eq_true, Bool.not_eq_true']
  | .and fs, integers => by
    rw [toExpr, World.truth_junction_and, toExprs_eq_map, List.all_map, List.all_eq_true, Holds,
      holdAll_iff]
    exact forall₂_congr (truths_toExprs integers)
  | .or fs, integers => by
    rw [toExpr, World.truth_junction_or, toExprs_eq_map, List.any_map, List.any_eq_true, Holds,
      holdSome_iff]
    exact exists_congr fun f => and_congr_right (truths_toExprs integers f)

theorem truths_toExprs : ∀ {fs : List Formula}, EverywhereAll Poly.IntegerCoeffs fs →
    ∀ f ∈ fs, ((W.eval f.toExpr).truth = true ↔ f.Holds W.valuation)
  | [], _ => fun _ mem => by cases mem
  | _ :: _, integers =>
    List.forall_mem_cons.2 ⟨truth_toExpr integers.1, truths_toExprs integers.2⟩
end

end Formula

/-- In every world the tree of a formula is true exactly where the formula is, and the tree of a
polynomial has its value. -/
theorem decoded_keeps_meaning (W : World) :
    (∀ f : Formula, f.Everywhere Poly.IntegerCoeffs →
      ((W.eval f.toExpr).truth = true ↔ f.Holds W.valuation)) ∧
    ∀ p : Poly, p.Integral → ((W.eval p.toExpr).number : ℚ) = W.valuation.value p :=
  ⟨fun _ integers => Formula.truth_toExpr integers, fun _ integral => Poly.number_toExpr integral⟩

/-- `x ** 2 + 2 * m[x] - 3 * (x / 2)`. -/
def squareAndQuotient : Poly :=
  ⟨[⟨⟨[⟨.symbol "x", 2⟩]⟩, 1⟩, ⟨.ofAtom (.app (.index "m") [.symbol "x"]), 2⟩,
    ⟨.ofAtom (.quot (.symbol "x") (.const 2)), -3⟩]⟩

theorem integral_squareAndQuotient : squareAndQuotient.Integral := by
  simp [squareAndQuotient, Poly.Integral, Poly.Everywhere, Poly.EverywhereAll, Term.EverywhereAll,
    Monomial.Everywhere, Factor.EverywhereAll, Atom.Everywhere, Monomial.ofAtom, Poly.symbol,
    Poly.ofAtom, Poly.const, Poly.IntegerCoeffs, Monomial.unit]

/-- Where every number is minus seven and nothing is true. -/
theorem decoded_keeps_meaning_negative :
    (Formula.and [.constraint ⟨squareAndQuotient, .range (some (-4)) (some 44)⟩,
      .not (.prop (.app (.function "paused") [squareAndQuotient]))]).Holds
        (World.ofPlaces (fun _ => -7) fun _ => false).valuation ∧
    (World.ofPlaces (fun _ => -7) fun _ => false).valuation.value squareAndQuotient =
      (44 : Int) := by
  obtain ⟨formulas, polynomials⟩ :=
    decoded_keeps_meaning (World.ofPlaces (fun _ => -7) fun _ => false)
  constructor
  · apply (formulas _ ?_).1
    · cbv
    · exact ⟨integral_squareAndQuotient, ⟨integral_squareAndQuotient, trivial⟩, trivial⟩
  · rw [← polynomials _ integral_squareAndQuotient]
    cbv

end PredicateStrength
