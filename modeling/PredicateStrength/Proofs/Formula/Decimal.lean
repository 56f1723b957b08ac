import Mathlib
import PredicateStrength.Proofs.Expr.Numerals
import PredicateStrength.Proofs.Formula.OfExpr

/-!
# Decimal fractions

An interpretation by integers reads decimal fractions, if the numerals are taken for what they
denote and everything else stays as it is: what is read and what `/ % ** & | ^` make are integers,
found at numbers rounded down. Where every numeral inside applications, reads and these operations
denotes an integer, nothing is rounded there, and the tree has the value that the integers give it.
Outside of them a fraction has its place: sums, differences and products of fractions are
polynomials with fractions as coefficients, and comparisons of these are exact.

Nothing is claimed of a fraction inside an operation: the quotient of two constants is exact if one
of them is a fraction, while the quotient of two polynomials counts as an integer.

Main statements: `Conversion.term_exact` and `Conversion.formula_exact`.
-/
namespace PredicateStrength

section Maps

variable {K L : Type} (f : K → L)

/-- The value with its number replaced. -/
def Value.map : Value K → Value L
  | .bool b => .bool b
  | .num x => .num (f x)

/-- The place with all its numbers replaced. -/
def Place.map : Place K → Place L
  | .value v => .value (v.map f)
  | .name n => .name n
  | .call p args => .call p.map (args.map (Value.map f))
  | .index p key => .index p.map (key.map f)
  | .member p field => .member p.map field

@[simp] theorem Value.sort_map (v : Value K) : (v.map f).sort = v.sort := by cases v <;> rfl

@[simp] theorem Value.isBool_map (v : Value K) : (v.map f).isBool = v.isBool := by cases v <;> rfl

@[simp] theorem Value.isNum_map (v : Value K) : (v.map f).isNum = v.isNum := by cases v <;> rfl

@[simp] theorem Value.truth_map (v : Value K) : (v.map f).truth = v.truth := by cases v <;> rfl

@[simp] theorem Place.path_map (p : Place K) : (p.map f).path = p.path := by
  induction p with
  | value v => simp [map, path]
  | name n => rfl
  | call p args ih => simp [map, path, ih]
  | index p key ih => simp [map, path, ih]
  | member p field ih => simp [map, path, ih]

@[simp] theorem Place.isBase_map (p : Place K) : (p.map f).isBase = p.isBase := by
  rw [← isBase_path, path_map, isBase_path]

end Maps

/-- The value as one of the rational numbers. -/
abbrev Value.cast : Value Int → Value Rat := Value.map Int.cast

/-- The place as one at rational numbers. -/
abbrev Place.cast : Place Int → Place Rat := Place.map Int.cast

theorem Value.floor_cast (v : Value Int) : v.cast.map Rat.floor = v := by
  cases v with
  | bool b => rfl
  | num n => exact congrArg Value.num (Rat.floor_intCast n)

theorem Value.number_cast (v : Value Int) : v.cast.number = v.number := by
  cases v with
  | bool b => cases b <;> simp [Value.cast, Value.map, number]
  | num n => rfl

theorem Place.floor_cast (p : Place Int) : p.cast.map Rat.floor = p := by
  induction p with
  | value v => exact congrArg Place.value v.floor_cast
  | name n => rfl
  | call p args ih =>
    have same : (args.map Value.cast).map (Value.map Rat.floor) = args := by
      rw [List.map_map]
      exact (List.map_congr_left fun v _ => v.floor_cast).trans (List.map_id' args)
    exact congrArg₂ Place.call ih same
  | index p key ih => exact congrArg₂ Place.index ih key.floor_cast
  | member p field ih => exact congrArg (Place.member · field) ih

namespace Interp

variable (I : Interp Int)

/-- The interpretation with readable numerals as fractions, and numbers rounded down wherever
integers are wanted. -/
def rational : Interp Rat where
  read p := (I.read (p.map Rat.floor)).cast
  literal? digits := (Numeral.value? digits).or ((I.literal? digits).map Int.cast)
  arith o x y := I.arith o x.floor y.floor

/-- The numeral denotes the same number among the integers and among the fractions. -/
def Agrees (digits : String) : Prop :=
  I.rational.literal? digits = (I.literal? digits).map Int.cast

variable {I}

theorem literal?_rational (digits : String) : I.rational.literal? digits =
    (Numeral.value? digits).or ((I.literal? digits).map Int.cast) := rfl

theorem lawful_rational (lawful : I.Lawful) : I.rational.Lawful where
  zero digits x value literal := by
    rw [literal?_rational, value] at literal
    exact (Option.some.inj literal).symm
  flag mask predicate mem m value x := by
    obtain ⟨k, readMask, rfl⟩ : ∃ k : Int, I.read (.name mask) = .num k ∧ m = k := by
      have known : (I.read (.name mask)).cast = .num m := value
      cases found : I.read (.name mask) with
      | bool b => rw [found] at known; cases known
      | num k =>
        rw [found] at known
        exact ⟨k, rfl, (Value.num.inj known).symm⟩
    obtain ⟨front, back⟩ := lawful.flag mask predicate mem k readMask x.floor
    have test : I.rational.read (.call (.name predicate) [.num x]) =
        (I.read (.call (.name predicate) [.num x.floor])).cast := rfl
    rw [test]
    constructor
    · rw [front]
      simp [Value.cast, Value.map, rational, Rat.floor_intCast]
    · rw [back]
      simp [Value.cast, Value.map, rational, Rat.floor_intCast]

/-- What is read has its sort among the fractions too, and every numeral may be admitted that is
readable or denotes an integer. -/
theorem respects_rational {sorts : Path → ValueSort} (read : ∀ p, (I.read p).sort = sorts p.path)
    (total : ∀ digits, Numeral.value? digits = none → (I.literal? digits).isSome = true) :
    I.rational.Respects ⟨sorts, fun _ => true⟩ where
  read p := by
    show ((I.read (p.map Rat.floor)).cast).sort = sorts p.path
    rw [Value.sort_map, read, Place.path_map]
  literal digits := by
    rw [literal?_rational]
    cases denoted : Numeral.value? digits with
    | none => rw [Option.none_or, Option.isSome_map, total digits denoted]
    | some q => rw [Option.some_or, Option.isSome_some]

theorem valueAt_cast (p : Place Int) : I.rational.valueAt p.cast = (I.valueAt p).cast := by
  cases p with
  | value v => rfl
  | _ => exact congrArg (fun q => (I.read q).cast) (Place.floor_cast _)

theorem operate_cast (o : Operator) (vs : List (Value Int)) :
    I.rational.operate o (vs.map Value.cast) = (I.operate o vs).map Value.cast := by
  have bools : (vs.map Value.cast).all Value.isBool = vs.all Value.isBool := by
    simp [List.all_map, Function.comp_def]
  have nums : (vs.map Value.cast).all Value.isNum = vs.all Value.isNum := by
    simp [List.all_map, Function.comp_def]
  have numbers : (vs.map Value.cast).map Value.number = (vs.map Value.number).map Int.cast := by
    rw [List.map_map, List.map_map]
    exact List.map_congr_left fun v _ => v.number_cast
  cases o
  case and =>
    rw [operate, operate, bools]
    split
    · simp [Value.map, List.all_map, Function.comp_def]
    · rfl
  case or =>
    rw [operate, operate, bools]
    split
    · simp [Value.map, List.any_map, Function.comp_def]
    · rfl
  case add =>
    rw [operate, operate, nums, numbers, ← Int.cast_list_sum]
    split <;> rfl
  case mul =>
    rw [operate, operate, nums, numbers, ← Int.cast_list_prod, List.isEmpty_map]
    split <;> rfl
  all_goals
    rcases vs with _ | ⟨v, _ | ⟨w, _ | ⟨u, us⟩⟩⟩
    · rfl
    · cases v <;> rfl
    · cases v <;> cases w <;> simp [operate, Value.map, relate, rational, Rat.floor_intCast]
    · cases v <;> cases w <;> rfl

theorem call?_cast {idiom : String → Option (Option (Place Int))}
    {idiom' : String → Option (Option (Place Rat))}
    (known : ∀ f, idiom' f = (idiom f).map (Option.map Place.cast)) (p : Place Int)
    (args : List (Value Int)) :
    p.cast.call? idiom' (args.map Value.cast) = (p.call? idiom args).map Place.cast := by
  cases p with
  | value v => cases v <;> rfl
  | name f =>
    cases args with
    | nil =>
      show (idiom' f).getD (some (.call (.name f) [])) =
        ((idiom f).getD (some (.call (.name f) []))).map Place.cast
      rw [known]
      cases idiom f <;> rfl
    | cons v vs => rfl
  | _ => rfl

mutual
/-- Among the fractions the tree has the place that it has among the integers. -/
theorem placeWith_cast {idiom : String → Option (Option (Place Int))}
    {idiom' : String → Option (Option (Place Rat))}
    (known : ∀ f, idiom' f = (idiom f).map (Option.map Place.cast)) :
    ∀ {e : Expr}, e.Numerals I.Agrees I.Agrees →
      I.rational.placeWith idiom' e = (I.placeWith idiom e).map Place.cast
  | .ident name, _ => rfl
  | .num digits, whole => by
    have agrees : I.rational.literal? digits = (I.literal? digits).map Int.cast := whole
    rw [placeWith, placeWith, agrees, Option.map_map, Option.map_map]
    rfl
  | .bool b, _ => rfl
  | .not e, whole => by
    rw [placeWith, placeWith, placeWith_cast known (Expr.numerals_not.1 whole)]
    cases I.placeWith idiom e with
    | none => rfl
    | some p =>
      simp only [Option.map_some, Option.bind_some, valueAt_cast]
      cases I.valueAt p <;> rfl
  | .neg e, whole => by
    rw [placeWith, placeWith, placeWith_cast known (Expr.numerals_neg.1 whole)]
    cases I.placeWith idiom e with
    | none => rfl
    | some p =>
      simp only [Option.map_some, Option.bind_some, valueAt_cast]
      cases I.valueAt p with
      | bool b => rfl
      | num n => simp [Value.map, Value.neg?, Place.map]
  | .op o args, whole => by
    have inside : ∀ a ∈ args, a.Numerals I.Agrees I.Agrees := by
      simpa only [Expr.numerals_op, ite_self] using whole
    rw [placeWith, placeWith, valuesWith_cast known inside]
    cases I.valuesWith idiom args with
    | none => rfl
    | some vs =>
      simp only [Option.map_some, Option.bind_some, operate_cast, Option.map_map]
      rfl
  | .call f args, whole => by
    obtain ⟨callee, rest⟩ := Expr.numerals_call.1 whole
    rw [placeWith, placeWith, placeWith_cast known callee, valuesWith_cast known rest]
    cases I.placeWith idiom f with
    | none => rfl
    | some p =>
      cases I.valuesWith idiom args with
      | none => rfl
      | some vs => exact call?_cast known p vs
  | .index base key, whole => by
    obtain ⟨inside, inside'⟩ := Expr.numerals_index.1 whole
    rw [placeWith, placeWith, placeWith_cast known inside, placeWith_cast known inside']
    cases I.placeWith idiom base with
    | none => rfl
    | some p =>
      cases I.placeWith idiom key with
      | none => rfl
      | some k =>
        simp only [Option.map_some, Option.bind_some, Place.index?, Place.isBase_map, valueAt_cast]
        split <;> rfl
  | .member base field, whole => by
    rw [placeWith, placeWith, placeWith_cast known (Expr.numerals_member.1 whole)]
    cases I.placeWith idiom base with
    | none => rfl
    | some p =>
      simp only [Option.map_some, Option.bind_some, Place.member?, Place.isBase_map]
      split <;> rfl

theorem valuesWith_cast {idiom : String → Option (Option (Place Int))}
    {idiom' : String → Option (Option (Place Rat))}
    (known : ∀ f, idiom' f = (idiom f).map (Option.map Place.cast)) :
    ∀ {es : List Expr}, (∀ e ∈ es, e.Numerals I.Agrees I.Agrees) →
      I.rational.valuesWith idiom' es = (I.valuesWith idiom es).map (List.map Value.cast)
  | [], _ => rfl
  | e :: es, whole => by
    obtain ⟨first, rest⟩ := List.forall_mem_cons.1 whole
    rw [valuesWith, valuesWith, placeWith_cast known first, valuesWith_cast known rest]
    cases I.placeWith idiom e with
    | none => rfl
    | some p =>
      cases I.valuesWith idiom es with
      | none => rfl
      | some vs => simp only [Option.map_some, Option.bind_some, valueAt_cast, List.map_cons]
end

theorem idiom_cast (f : String) : I.rational.idiom f = (I.idiom f).map (Option.map Place.cast) := by
  rw [idiom, idiom, Option.map_map]
  cases entry : Canonical.localIdioms.lookup f with
  | none => rfl
  | some body =>
    have known := Canonical.mem_of_lookup entry
    simp only [Canonical.localIdioms, List.mem_cons, Prod.mk.injEq, List.not_mem_nil,
      or_false] at known
    have whole : body.Numerals I.Agrees I.Agrees := by
      rcases known with ⟨-, rfl⟩ | ⟨-, rfl⟩ | ⟨-, rfl⟩ <;> simp [Expr.binary, Expr.apply]
    have same : I.rational.placeWith (fun _ => none) body =
        (I.placeWith (fun _ => none) body).map Place.cast := placeWith_cast (by simp) whole
    exact congrArg some same

/-- Where every numeral denotes an integer the fractions make no difference. -/
theorem value?_cast {e : Expr} (whole : e.Numerals I.Agrees I.Agrees) :
    I.rational.value? e = (I.value? e).map Value.cast := by
  rw [value?, place?, placeWith_cast idiom_cast whole, value?, place?, Option.map_map,
    Option.map_map]
  exact congrArg (Option.map · _) (funext fun p => valueAt_cast p)

end Interp

variable {I : Interp Int}

/-- The polynomial stands for the value. -/
def Stands (I : Interp Int) (p : Poly) : Value Rat → Prop
  | .num x => IsQuantity I p x
  | .bool b => ∃ a, IsAtom I a (.bool b) ∧ p = .ofAtom a

namespace IsQuantity

variable {p q r : Poly} {x y z : Rat}

/-- A sum, difference or product of polynomials is that of their values. -/
theorem arithmetic {e : Expr} {o : Operator} (bound : o.isFree = false) (hp : IsQuantity I p x)
    (hq : IsQuantity I q y) (operation : I.rational.operate o [.num x, .num y] = some (.num z))
    (h : (Conversion.arithmetic e o p q).result = .ok r) : IsQuantity I r z := by
  cases o <;> simp [Operator.isFree] at bound <;>
    simp [Interp.operate, Value.isNum, Value.number] at operation
  case add =>
    cases h
    exact operation ▸ hp.add hq
  case sub =>
    cases h
    exact operation ▸ hp.sub hq
  case mul =>
    rw [Poly.eq_mul_of_mul? (Conversion.orOverflow_eq_ok.1 h)]
    exact operation ▸ hp.mul hq

end IsQuantity

/-- What stands for an integer stands for it among the fractions. -/
theorem Represents.stands {p : Poly} {v : Value Int} (h : Represents I p v) :
    Stands I p v.cast := by
  cases v with
  | bool b => exact h
  | num n =>
    exact IsNumber.quantity h

namespace Stands

variable {p : Poly} {v : Value Rat}

theorem isSide (h : Stands I p v) : IsSide I p v.sort v.number := by
  cases v with
  | num x => exact IsQuantity.isSide h
  | bool b =>
    obtain ⟨a, atom, rfl⟩ := h
    exact Value.number_cast (.bool b) ▸ atom.isSide

end Stands

namespace Conversion
open Interp

/-- A comparison of polynomials is the comparison of what they stand for, and what it leaves has
integer coefficients. -/
theorem ofComparison_exact {o : Operator} (rel : o.isRelational = true) {p q : Poly}
    {v w : Value Rat} (hp : Stands I p v) (hq : Stands I q w) {b : Bool}
    (operation : I.rational.operate o [v, w] = some (.bool b)) :
    IsTruth I (Constraint.ofComparison o p q) b := by
  have same := sort_eq_of_operate rel operation
  have truth := isTruth_ofComparison rel hp.isSide (same ▸ hq.isSide)
  rwa [relate_number rel operation] at truth

/-- Numerals stand anywhere outside of applications, reads and `/ % ** & | ^`; inside, they denote
integers. -/
abbrev Fits (I : Interp Int) (e : Expr) : Prop := e.Numerals I.Agrees fun _ => True

/-- The polynomial of a tree of integers. -/
theorem term_whole (arith : I.Arithmetical) {e : Expr} (whole : e.Numerals I.Agrees I.Agrees)
    {v : Value Rat} {p : Poly} (value : I.rational.value? e = some v)
    (h : (term e).result = .ok p) : Stands I p v := by
  rw [value?_cast whole] at value
  obtain ⟨w, known, rfl⟩ := Option.map_eq_some_iff.1 value
  exact (term_sound arith known h).stands

/-- The formula of a tree of integers. -/
theorem formula_whole (arith : I.Arithmetical) {e : Expr} (whole : e.Numerals I.Agrees I.Agrees)
    {b : Bool} {f : Formula} (value : I.rational.value? e = some (.bool b))
    (h : (formula e).result = .ok f) : IsTruth I f b := by
  rw [value?_cast whole] at value
  obtain ⟨w, known, same⟩ := Option.map_eq_some_iff.1 value
  cases w with
  | num n => cases same
  | bool c =>
    cases same
    exact formula_sound arith known h

/-- A fraction does not fit into a call, an element or a member. -/
theorem Access.whole {R : Expr → Poly → Prop} {e : Expr} {a : Atom} (h : Access R e a)
    (fits : Fits I e) : e.Numerals I.Agrees I.Agrees := by
  cases h with
  | application shape => cases shape <;> exact fits
  | _ => exact fits

theorem fits_operands {o : Operator} (bound : o.isFree = false) {args : List Expr}
    (fits : Fits I (.op o args)) : ∀ a ∈ args, Fits I a := by
  simpa only [Expr.numerals_op, bound, Bool.false_eq_true, if_false] using fits

/-- Polynomials that stand for the values of their trees, beside these values. -/
theorem stands_of_values {es : List Expr} {ps : List Poly} {vs : List (Value Rat)}
    (operands : List.Forall₂
      (fun e p => Fits I e → ∀ v, I.rational.value? e = some v → Stands I p v) es ps)
    (fits : ∀ e ∈ es, Fits I e) (values : I.rational.values? es = some vs) :
    List.Forall₂ (Stands I) ps vs :=
  forall₂_beside (forall₂_of_mem operands fun e mem _ exact => exact (fits e mem))
    (values?_eq_some_iff.1 values) fun _ _ v exact => exact v

/-- The operands of a sum or product behind those that make `p`. -/
theorem foldlM_exact {e : Expr} {o : Operator} (sum : o = .add ∨ o = .mul) {ps : List Poly}
    {vs : List (Value Rat)} {v : Value Rat} {x : Rat} {p q : Poly}
    (operands : List.Forall₂ (Stands I) ps vs) (hp : IsQuantity I p x)
    (operation : I.rational.operate o (.num x :: vs) = some v)
    (h : (ps.foldlM (arithmetic e o) p).result = .ok q) : Stands I q v := by
  induction operands generalizing p x with
  | nil =>
    cases h
    cases operation.symm.trans (operate_single sum x)
    exact hp
  | cons first rest ih =>
    obtain ⟨y, z, rfl, fused, later⟩ := operate_fuse sum operation
    obtain ⟨s, result, h⟩ := Attempt.bind_eq_ok.1 h
    exact ih (hp.arithmetic (isFree_of_sum sum) first fused result) later h

theorem numeral_exact (arith : I.Arithmetical) {digits : String} {p : Poly}
    (result : IsTerm (.num digits) p) {v : Value Rat}
    (value : I.rational.value? (.num digits) = some v) : Stands I p v := by
  cases denoted : Numeral.value? digits with
  | none =>
    have agrees : I.Agrees digits := by rw [Agrees, literal?_rational, denoted, Option.none_or]
    exact term_whole arith (e := .num digits) agrees value result
  | some q =>
    obtain ⟨x, literal, rfl⟩ := value?_num value
    rw [literal?_rational, denoted, Option.some_or, Option.some.injEq] at literal
    subst literal
    rw [IsTerm, term, numeral, denoted] at result
    cases result
    exact IsQuantity.const q

theorem termCases_exact (arith : I.Arithmetical) :
    TermCases fun e p => Fits I e → ∀ v, I.rational.value? e = some v → Stands I p v where
  name x fits v value := term_whole arith (e := .ident x) fits value rfl
  numeral result _ v value := numeral_exact arith result value
  neg operand fits v value := by
    obtain ⟨x, known, rfl⟩ := value?_neg_eq_some.1 value
    exact IsQuantity.neg (operand fits _ known)
  access access whole fits v value := term_whole arith (access.whole fits) value whole
  empty sum _ v value := by
    obtain ⟨vs, values, operation⟩ := value?_op_eq_some.1 value
    cases values
    rcases sum with rfl | rfl <;> cases operation
    exact IsQuantity.const 0
  joined sum first rest result fits v value := by
    obtain ⟨vs, values, operation⟩ := value?_op_eq_some.1 value
    cases stands_of_values (.cons first rest) (fits_operands (isFree_of_sum sum) fits) values with
    | cons here others =>
      obtain ⟨x, rfl⟩ := operate_cons_num sum operation
      exact foldlM_exact sum others here operation result
  pair := by
    intro o a b p q r binary left right result whole fits v value
    by_cases free : o.isFree = true
    · have inside : (Expr.op o [a, b]).Numerals I.Agrees I.Agrees := by
        simpa only [Expr.numerals_op, free, if_true, ite_self] using fits
      exact term_whole arith inside value whole
    · have bound : o.isFree = false := by simpa using free
      have operands := fits_operands bound fits
      obtain ⟨vs, values, operation⟩ := value?_op_eq_some.1 value
      obtain ⟨x, y, z, rfl, rfl⟩ := operate_pair binary operation
      obtain ⟨va, vb, ha, hb, same⟩ := values?_pair.1 values
      cases same
      have hp : IsQuantity I p x := left (operands a (by simp)) _ ha
      have hq : IsQuantity I q y := right (operands b (by simp)) _ hb
      exact hp.arithmetic bound hq operation result

/-- The polynomial of a tree stands for the value of the tree. -/
theorem term_exact (arith : I.Arithmetical) {e : Expr} {v : Value Rat} {p : Poly}
    (fits : Fits I e) (value : I.rational.value? e = some v) (h : (term e).result = .ok p) :
    Stands I p v := (termCases_exact arith).term h fits v value

theorem formulaCases_exact (arith : I.Arithmetical) :
    FormulaCases fun e f => Fits I e → ∀ b, I.rational.value? e = some (.bool b) →
      IsTruth I f b where
  name x fits b value := formula_whole arith (e := .ident x) fits value rfl
  const c fits b value := formula_whole arith (e := .bool c) fits value rfl
  not operand fits b value := by
    obtain ⟨c, known, same⟩ := value?_not_eq_some.1 value
    cases same
    exact (operand fits c known).not
  access access whole fits b value := formula_whole arith (access.whole fits) value whole
  and operands fits b value :=
    and_sound (forall₂_of_mem operands fun e mem _ exact => exact (fits_operands rfl fits e mem))
      value
  or operands fits b value :=
    or_sound (forall₂_of_mem operands fun e mem _ exact => exact (fits_operands rfl fits e mem))
      value
  equality isEq shapes left right fits b value := by
    have operands := fits_operands (by rcases isEq with rfl | rfl <;> rfl) fits
    exact equality_sound isEq shapes (left (operands _ (.head _)))
      (right (operands _ (.tail _ (.head _)))) value
  comparison := by
    intro o a b p q rel left right fits t value
    have bound : o.isFree = false := by cases o <;> first | rfl | cases rel
    have operands := fits_operands bound fits
    obtain ⟨vs, values, operation⟩ := value?_op_eq_some.1 value
    obtain ⟨v, w, ha, hb, rfl⟩ := values?_pair.1 values
    exact ofComparison_exact rel (term_exact arith (operands a (.head _)) ha left)
      (term_exact arith (operands b (.tail _ (.head _))) hb right) operation

/-- The formula of a tree is true exactly where the tree is. -/
theorem formula_exact (arith : I.Arithmetical) {e : Expr} {b : Bool} {f : Formula}
    (fits : Fits I e) (value : I.rational.value? e = some (.bool b))
    (h : (formula e).result = .ok f) : IsTruth I f b :=
  (formulaCases_exact arith).formula h fits b value

end Conversion
end PredicateStrength
