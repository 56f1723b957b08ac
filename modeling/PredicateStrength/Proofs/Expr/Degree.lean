import Mathlib
import PredicateStrength.Formula.OfExpr
import PredicateStrength.Proofs.Expr.Defect

/-!
# Degrees of trees

The degree of a tree bounds the degree of the polynomial that it converts to, and is read off the
tree. Sums take the highest degree of their operands and products add them up. A power multiplies
the degree by its exponent, where the exponent is written as a numeral that is multiplied out, and
by the highest exponent that is multiplied out where it has to be computed first. What becomes an
atom has degree one.

A comparison counts as a sum: with a truth value on one side it can be replaced by its other
operand.

Main statement: the canonical form raises no degree, neither at the root nor anywhere in the tree
(`Expr.lowers_canonical`).
-/
namespace PredicateStrength

open PredicateStrength.Expr

/-- The highest of the numbers, zero if there are none. -/
def highest (ds : List Nat) : Nat := ds.foldr max 0

theorem highest_le {ds : List Nat} {n : Nat} : highest ds ≤ n ↔ ∀ d ∈ ds, d ≤ n := by
  induction ds with
  | nil => simp [highest]
  | cons d ds ih => rw [highest, List.foldr_cons, max_le_iff, List.forall_mem_cons, ← ih, highest]

/-- The degree of an operation, by the degrees of its operands and by the highest exponents that
they are as exponents. -/
def Operator.degreeOf (o : Operator) (ds es : List Nat) : Nat :=
  match o with
  | .mul => ds.sum
  | .div => max 1 (ds.headD 0)
  | .pow => max 1 (ds.headD 0 * es.getD 1 0)
  | .mod | .bitAnd | .bitOr | .bitXor => 1
  | _ => highest ds

namespace Expr

/-- The highest exponent that the tree can be where a power is multiplied out. -/
def exponentBound : Expr → Nat
  | .num digits =>
    match Numeral.value? digits with
    | some q => if q.den = 1 ∧ q.num ≤ Conversion.maxSymbolicExponent then q.num.toNat else 0
    | none => 0
  | _ => Conversion.maxSymbolicExponent

mutual
/-- The degree that the tree is written with. -/
def degree : Expr → Nat
  | .num digits => if (Numeral.value? digits).isSome then 0 else 1
  | .bool _ => 0
  | .not e | .neg e => degree e
  | .op o args => o.degreeOf (degrees args) (args.map exponentBound)
  | .ident _ | .call _ _ | .index _ _ | .member _ _ => 1

def degrees : List Expr → List Nat
  | [] => []
  | e :: es => degree e :: degrees es
end

variable {rule g : Expr → Expr} {e f a b : Expr} {o : Operator} {as bs args : List Expr} {n : Nat}

theorem degrees_eq_map (es : List Expr) : degrees es = es.map degree := by
  induction es with
  | nil => rfl
  | cons e es ih => rw [degrees, ih, List.map_cons]

theorem degree_op (o : Operator) (args : List Expr) :
    (op o args).degree = o.degreeOf (args.map degree) (args.map exponentBound) := by
  rw [degree, degrees_eq_map]

theorem highest_degree_le : highest (as.map degree) ≤ n ↔ ∀ a ∈ as, a.degree ≤ n := by
  rw [highest_le, List.forall_mem_map]

theorem degree_le_highest (mem : a ∈ as) : a.degree ≤ highest (as.map degree) :=
  highest_degree_le.1 le_rfl a mem

theorem degree_relational (rel : o.isRelational = true) (args : List Expr) :
    (op o args).degree = highest (args.map degree) := by
  cases o <;> first | exact degree_op _ _ | cases rel

theorem degree_relational_pair (rel : o.isRelational = true) (a b : Expr) :
    (op o [a, b]).degree = max a.degree b.degree := by
  rw [degree_relational rel]
  simp [highest]

theorem degree_add_pair (a b : Expr) : (op .add [a, b]).degree = max a.degree b.degree := by
  rw [degree_op]
  simp [Operator.degreeOf, highest]

theorem exponentBound_le (e : Expr) : e.exponentBound ≤ Conversion.maxSymbolicExponent := by
  unfold exponentBound
  split
  · split
    · split
      · omega
      · exact Nat.zero_le _
    · exact Nat.zero_le _
  · exact le_rfl

/-- The tree `f` has no higher degree than `e`, as a whole, as an exponent and anywhere inside. -/
structure Lowers (e f : Expr) : Prop where
  degree : f.degree ≤ e.degree
  exponent : f.exponentBound ≤ e.exponentBound
  everywhere : ∀ n, 1 ≤ n → Everywhere (·.degree ≤ n) e → Everywhere (·.degree ≤ n) f

namespace Lowers

theorem refl (e : Expr) : Lowers e e := ⟨le_rfl, le_rfl, fun _ _ all => all⟩

theorem trans {e f g : Expr} (h : Lowers e f) (h' : Lowers f g) : Lowers e g :=
  ⟨h'.degree.trans h.degree, h'.exponent.trans h.exponent,
    fun n one all => h'.everywhere n one (h.everywhere n one all)⟩

/-- A node in place of an operation: as an exponent that may be anything. -/
theorem of_op (degree : f.degree ≤ (op o args).degree)
    (everywhere : ∀ n, 1 ≤ n → Everywhere (·.degree ≤ n) (op o args) →
      Everywhere (·.degree ≤ n) f) : Lowers (op o args) f :=
  ⟨degree, exponentBound_le f, everywhere⟩

/-- An operation on lower operands has no higher degree. -/
theorem degreeOf_map_le (h : ∀ c ∈ args, Lowers c (g c)) :
    o.degreeOf ((args.map g).map Expr.degree) ((args.map g).map exponentBound) ≤
      o.degreeOf (args.map Expr.degree) (args.map exponentBound) := by
  have le : highest ((args.map g).map Expr.degree) ≤ highest (args.map Expr.degree) := by
    refine highest_degree_le.2 fun d mem => ?_
    obtain ⟨c, inside, rfl⟩ := List.mem_map.1 mem
    exact (h c inside).degree.trans (degree_le_highest inside)
  cases o
  case mul =>
    rw [List.map_map]
    exact List.sum_le_sum fun c mem => (h c mem).degree
  case div =>
    cases args with
    | nil => exact le_rfl
    | cons a as => exact max_le_max le_rfl (h a List.mem_cons_self).degree
  case pow =>
    match args with
    | [] | [_] => simp [Operator.degreeOf]
    | a :: b :: as =>
      -- the exponent is another tree afterwards, and may be a numeral that was none before
      have base := (h a List.mem_cons_self).degree
      have exponent := (h b (List.mem_cons_of_mem a List.mem_cons_self)).exponent
      exact max_le_max le_rfl (Nat.mul_le_mul base exponent)
  case mod | bitAnd | bitOr | bitXor => exact le_rfl
  all_goals exact le

/-- Lower parts make a lower node. -/
theorem mapParts (h : ∀ c ∈ e.parts, Lowers c (g c)) : Lowers e (e.mapParts g) := by
  have degree : (e.mapParts g).degree ≤ e.degree := by
    cases e with
    | not e | neg e => exact (h e List.mem_cons_self).degree
    | op o args =>
      rw [Expr.mapParts, degree_op, degree_op]
      exact degreeOf_map_le h
    | _ => exact le_rfl
  refine ⟨degree, ?_, fun n one all => .node (degree.trans all.root) fun d mem => ?_⟩
  · cases e <;> exact le_rfl
  · rw [parts_mapParts] at mem
    obtain ⟨c, inside, rfl⟩ := List.mem_map.1 mem
    exact (h c inside).everywhere n one (all.part inside)

/-- A rule that raises no degree raises none when it is carried through a tree. -/
theorem bottomUp (h : ∀ e, Lowers e (rule e)) (e : Expr) : Lowers e (Expr.bottomUp rule e) := by
  induction e using inductionOnParts with
  | node e ih =>
    rw [bottomUp_eq]
    exact (mapParts ih).trans (h _)

end Lowers

end Expr

namespace Canonical

variable {e : Expr} {o : Operator} {as bs : List Expr}

theorem lowers_expandIdiom (e : Expr) : Lowers e (expandIdiom e) := by
  by_cases call : e.Matches Pattern.idiomCalled
  · obtain ⟨name, t, rfl, entry⟩ := matches_idiomCalled.1 call
    obtain ⟨front, back, table, -⟩ := List.lookup_eq_some_iff.1 entry
    have low : Everywhere (·.degree ≤ 1) t :=
      everywhere_idiom (fun _ _ _ => le_rfl) (fun _ => le_rfl)
        (fun a b left right => (degree_relational_pair rfl a b).trans_le (max_le left right))
        (name, t) (by simp [table])
    rw [expandIdiom, entry, Option.getD_some]
    exact ⟨low.root, exponentBound_le t, fun n one _ => low.mono fun _ le => le.trans one⟩
  · rw [expandIdiom_of_not_matches call]
    exact .refl e

theorem lowers_foldBoolEquality (e : Expr) : Lowers e (foldBoolEquality e) := by
  by_cases compared : e.Matches Pattern.truthCompared
  · obtain ⟨o, a, b, rfl, isEq, -⟩ := matches_truthCompared.1 compared
    have rel : o.isRelational = true := by rcases isEq with rfl | rfl <;> rfl
    have folded : ∀ value, ∀ c ∈ [a, b], Lowers (op o [a, b]) (comparedWith o value c) := by
      intro value c mem
      have le : c.degree ≤ (op o [a, b]).degree := by
        rw [degree_relational rel]
        exact degree_le_highest mem
      unfold comparedWith
      split
      · exact .of_op le fun n _ all => all.part mem
      · exact .of_op le fun n _ all =>
          .node (le.trans all.root) (List.forall_mem_singleton.2 (all.part mem))
    rw [foldBoolEquality_pair isEq]
    split
    · exact folded _ b (by simp)
    · exact folded _ a (by simp)
    · exact .refl _
  · rw [foldBoolEquality_of_not_matches compared]
    exact .refl e

theorem lowers_dropDoubleNegation (e : Expr) : Lowers e (dropDoubleNegation e) := by
  by_cases double : e.Matches Pattern.doubleNegation
  · obtain ⟨x, rfl⟩ := matches_doubleNegation.1 double
    exact ⟨le_rfl, exponentBound_le x,
      fun n _ all => (all.part List.mem_cons_self).part List.mem_cons_self⟩
  · rw [dropDoubleNegation_of_not_matches double]
    exact .refl e

theorem degree_moveSubtrahends (side other : Expr) :
    max (moveSubtrahends side other).1.degree (moveSubtrahends side other).2.degree =
      max side.degree other.degree := by
  induction side, other using moveSubtrahends.induct with
  | case1 a b other ih =>
    have difference : (op .sub [a, b]).degree = max a.degree b.degree := degree_add_pair a b
    rw [moveSubtrahends, ih, Expr.binary, degree_add_pair, difference, max_assoc, max_comm b.degree]
  | case2 side other plain =>
    rw [moveSubtrahends]
    exact plain

theorem lowers_shiftSubtraction (e : Expr) : Lowers e (shiftSubtraction e) := by
  by_cases fits : Shape.comparison.Fits e
  · obtain ⟨o, lhs, rhs, rfl, rel⟩ := fits
    rw [shiftSubtraction_pair rel]
    have same : ∀ a b,
        max (moveSubtrahends (moveSubtrahends b a).2 (moveSubtrahends b a).1).1.degree
          (moveSubtrahends (moveSubtrahends b a).2 (moveSubtrahends b a).1).2.degree =
            max a.degree b.degree := fun a b => by
      rw [degree_moveSubtrahends, max_comm, degree_moveSubtrahends, max_comm]
    have degree := (degree_relational_pair rel _ _).trans
      ((same lhs rhs).trans (degree_relational_pair rel lhs rhs).symm)
    refine .of_op degree.le fun n _ all => ?_
    have sums : ∀ a b : Expr, a.degree ≤ n → b.degree ≤ n → (op .add [a, b]).degree ≤ n :=
      fun a b left right => (degree_add_pair a b).trans_le (max_le left right)
    have first := everywhere_moveSubtrahends sums (all.part (c := rhs) (by simp [parts]))
      (all.part (c := lhs) (by simp [parts]))
    have second := everywhere_moveSubtrahends sums first.2 first.1
    exact .pair (degree.trans_le all.root) second.1 second.2
  · rw [shiftSubtraction_of_not_fits fits]
    exact .refl e

theorem lowers_perm (comm : o.isCommutative = true) (h : bs.Perm as) :
    Lowers (op o as) (op o bs) := by
  have degree : (op o bs).degree = (op o as).degree := by
    have same : highest (bs.map Expr.degree) = highest (as.map Expr.degree) :=
      (h.map _).foldr_eq 0
    rw [degree_op, degree_op]
    cases o <;> simp only [Operator.isCommutative, Bool.false_eq_true] at comm
    case mul => exact (h.map _).sum_eq
    all_goals exact same
  exact .of_op degree.le fun n _ all =>
    .node (degree.trans_le all.root) fun c mem => all.part (h.mem_iff.1 mem)

theorem lowers_splice (assoc : o.isAssociative = true) (as : List Expr) :
    Lowers (op o as) (op o (splice o as)) := by
  have joined : ∀ es, (op o es).degree = highest (es.map Expr.degree) := by
    intro es
    rw [degree_op]
    cases o <;> first | rfl | cases assoc
  have degree : (op o (splice o as)).degree ≤ (op o as).degree := by
    rw [joined, joined]
    refine highest_degree_le.2 fun c mem => ?_
    obtain ⟨a, inside, operand⟩ := List.mem_flatMap.1 mem
    refine le_trans ?_ (degree_le_highest inside)
    rcases mem_operands operand with ⟨rfl, -⟩ | ⟨args, rfl, part⟩
    · exact le_rfl
    · rw [joined]
      exact degree_le_highest part
  refine .of_op degree fun n _ all => .node (degree.trans all.root) fun c mem => ?_
  obtain ⟨a, inside, operand⟩ := List.mem_flatMap.1 mem
  rcases mem_operands operand with ⟨rfl, -⟩ | ⟨args, rfl, part⟩
  · exact all.part inside
  · exact (all.part inside).part part

theorem lowers_flatten (e : Expr) : Lowers e (flatten e) := by
  unfold flatten
  split
  · split
    · next assoc => exact lowers_splice assoc _
    · exact .refl _
  · exact .refl _

theorem lowers_normalizeSum (e : Expr) : Lowers e (normalizeSum e) := by
  unfold normalizeSum
  split
  · exact (lowers_splice rfl _).trans (lowers_perm rfl (Sorting.sort_perm cmp _))
  · exact .refl _

theorem lowers_sortCommutative (e : Expr) : Lowers e (sortCommutative e) := by
  unfold sortCommutative
  split
  · split
    · next comm => exact lowers_perm comm (Sorting.sort_perm cmp _)
    · exact .refl _
  · exact .refl _

theorem lowers_orderEquality (e : Expr) : Lowers e (orderEquality e) := by
  have swap : ∀ o a b, o.isCommutative = true → Lowers (.op o [a, b])
      (if cmp b a = .lt then .op o [b, a] else .op o [a, b]) := by
    intro o a b comm
    split
    · exact lowers_perm comm (.swap a b [])
    · exact .refl _
  unfold orderEquality
  split
  · exact swap .eq _ _ rfl
  · exact swap .ne _ _ rfl
  · exact .refl _

/-- The masked value of the comparison has degree one. -/
theorem one_le_degree_of_flagCompared (h : e.Matches Pattern.flagCompared) : 1 ≤ e.degree := by
  rw [Matches] at h
  obtain ⟨⟨o, a, b, rfl, isEq⟩, sought⟩ := h
  obtain ⟨c, mem, masked⟩ := sought Pattern.masked (by simp [Pattern.flagCompared])
  obtain ⟨x, y, rfl, -⟩ := matches_masked.1 masked
  have rel : o.isRelational = true := by rcases isEq with rfl | rfl <;> rfl
  rw [degree_relational rel]
  exact (degree_op .bitAnd [x, y]).ge.trans (degree_le_highest mem)

theorem lowers_expandFlag (e : Expr) : Lowers e (expandFlag e) := by
  have everywhere : ∀ n, 1 ≤ n → Everywhere (·.degree ≤ n) e →
      Everywhere (·.degree ≤ n) (expandFlag e) := fun n one all =>
    everywhere_expandFlag (fun _ => one) (fun _ _ => one) (fun _ _ => one)
      (fun _ mem => all.part mem) fun _ => all.root
  by_cases flag : e.Matches Pattern.flagCompared
  · have low := one_le_degree_of_flagCompared flag
    obtain ⟨o, a, b, rfl, -, -⟩ := matches_flagCompared.1 flag
    refine .of_op ?_ everywhere
    obtain ⟨predicate, -, c, -, -, result | result⟩ := expandFlag_of_matches flag
    · rwa [result]
    · rwa [result]
  · rw [expandFlag_of_not_matches flag]
    exact .refl e

theorem lowers_round (e : Expr) : Lowers e (round e) := by
  rw [round_eq]
  exact (Lowers.bottomUp lowers_expandIdiom _).trans <|
    (Lowers.bottomUp lowers_foldBoolEquality _).trans <|
    (Lowers.bottomUp lowers_dropDoubleNegation _).trans <|
    (Lowers.bottomUp lowers_shiftSubtraction _).trans <|
    (Lowers.bottomUp lowers_flatten _).trans <|
    (Lowers.bottomUp lowers_normalizeSum _).trans <|
    (Lowers.bottomUp lowers_sortCommutative _).trans <|
    (Lowers.bottomUp lowers_orderEquality _).trans (Lowers.bottomUp lowers_expandFlag _)

theorem lowers_rounds (n : Nat) (e : Expr) : Lowers e (rounds n e) := by
  induction n generalizing e with
  | zero => exact .refl e
  | succ n ih =>
    rw [rounds_succ]
    exact (lowers_round e).trans (ih _)

end Canonical

/-- The canonical form raises no degree. -/
theorem Expr.lowers_canonical (e : Expr) : Lowers e e.canonical := Canonical.lowers_rounds _ e

end PredicateStrength
