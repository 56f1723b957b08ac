import Mathlib
import PredicateStrength.Proofs.Formula.OfExpr
import PredicateStrength.Proofs.Poly.Renaming

/-!
# Renaming before and after conversion

The polynomial of a renamed tree is the renamed polynomial, and the formula of a renamed tree the
renamed formula. Errors quote trees, so of these only the kind stays the same.

Main statements: `Conversion.term_rename` and `Conversion.formula_rename`.
-/
namespace PredicateStrength

/-- An exponent does not fit its word. -/
def ConversionError.isOverflow : ConversionError → Bool
  | .exponentOverflow _ => true
  | _ => false

namespace Conversion

/-- Both attempts succeed, and `g` takes the outcome of the first to that of the second; or both
fail, with an overflow or without. -/
inductive Agree {α β : Type} (g : α → β) : Attempt α → Attempt β → Prop
  | ok {x : Attempt α} {y : Attempt β} {a : α} (first : x.result = .ok a)
      (second : y.result = .ok (g a)) : Agree g x y
  | error {x : Attempt α} {y : Attempt β} {e e' : ConversionError} (first : x.result = .error e)
      (second : y.result = .error e') (kind : e.isOverflow = e'.isOverflow) : Agree g x y

namespace Agree

variable {α β γ δ : Type}

theorem pure {g : α → β} {a : α} {b : β} (same : b = g a) :
    Agree g (Pure.pure a : Attempt α) (Pure.pure b) := .ok rfl (congrArg Except.ok same)

theorem bind {g : α → β} {h : γ → δ} {x : Attempt α} {y : Attempt β} {k : α → Attempt γ}
    {l : β → Attempt δ} (first : Agree g x y) (next : ∀ a, Agree h (k a) (l (g a))) :
    Agree h (x >>= k) (y >>= l) := by
  cases first with
  | @ok a left right =>
    have unfold : (x >>= k).result = (k a).result := by rw [Attempt.result_bind, left]; rfl
    have unfold' : (y >>= l).result = (l (g a)).result := by rw [Attempt.result_bind, right]; rfl
    cases next a with
    | ok left right => exact .ok (unfold.trans left) (unfold'.trans right)
    | error left right kind => exact .error (unfold.trans left) (unfold'.trans right) kind
  | error left right kind =>
    exact .error (by rw [Attempt.result_bind, left]; rfl) (by rw [Attempt.result_bind, right]; rfl)
      kind

theorem orOverflow {g : α → β} {e e' : Expr} {x : Option α} {y : Option β} (same : y = x.map g) :
    Agree g (Conversion.orOverflow e x) (Conversion.orOverflow e' y) := by
  subst same
  cases x with
  | none => exact .error rfl rfl rfl
  | some a => exact .ok rfl rfl

theorem mismatch {g : α → β} {e e' : Expr} {sort : ValueSort} :
    Agree g (Conversion.mismatch e sort) (Conversion.mismatch e' sort) := .error rfl rfl rfl

theorem wrongOperandCount {g : α → β} {e e' : Expr} :
    Agree g (Conversion.wrongOperandCount e) (Conversion.wrongOperandCount e') := .error rfl rfl rfl

end Agree

variable {R : Renaming} {e : Expr} {p q : Poly}

theorem verbatim_rename (e : Expr) (reason : String) :
    Agree (Atom.rename R) (verbatim e reason) (verbatim (e.rename R) reason) := .ok rfl rfl

theorem ofAtom_rename {x y : Attempt Atom} (agree : Agree (Atom.rename R) x y) :
    Agree (Poly.rename R) (do return .ofAtom (← x)) (do return .ofAtom (← y)) :=
  agree.bind fun _ => .pure rfl

theorem isBoolean_rename (e : Expr) : (e.rename R).isBoolean = e.isBoolean := by cases e <;> rfl

theorem numeral_rename (e : Expr) (digits : String) :
    Agree (Poly.rename R) (numeral e digits) (numeral (e.rename R) digits) := by
  unfold numeral
  split
  · exact .pure (Poly.rename_const _).symm
  · exact ofAtom_rename (verbatim_rename e _)

theorem divide_rename (e : Expr) (p q : Poly) :
    Agree (Poly.rename R) (divide e p q) (divide (e.rename R) (p.rename R) (q.rename R)) := by
  unfold divide
  rw [Poly.constant?_rename, Poly.constant?_rename]
  split
  · exact .pure rfl
  · split
    · exact ofAtom_rename (verbatim_rename e _)
    · split
      · split <;> exact .pure (Poly.rename_const _).symm
      · rw [Poly.divisibleBy_rename]
        split
        · exact .pure (Poly.rename_scale _ p).symm
        · exact .pure rfl

theorem remainder_rename (e : Expr) (p q : Poly) :
    Agree (Poly.rename R) (remainder e p q) (remainder (e.rename R) (p.rename R) (q.rename R)) := by
  unfold remainder
  rw [Poly.integer?_rename, Poly.integer?_rename]
  split
  · split
    · exact ofAtom_rename (verbatim_rename e _)
    · split
      · exact .pure (Poly.rename_const _).symm
      · split
        · exact .pure rfl
        · exact .pure rfl
  · exact .pure rfl

theorem power_rename (mono : R.Monotone) (e : Expr) (p q : Poly) :
    Agree (Poly.rename R) (power e p q) (power (e.rename R) (p.rename R) (q.rename R)) := by
  unfold power
  rw [Poly.constant?_rename, Poly.integer?_rename]
  dsimp only
  generalize (if p.constant?.isSome = true then maxConstantExponent else maxSymbolicExponent) =
    limit
  split
  · split
    · exact .orOverflow (Poly.rename_pow? mono p _)
    · exact ofAtom_rename (verbatim_rename e _)
  · exact ofAtom_rename (verbatim_rename e _)

theorem bitwise_rename (e : Expr) (o : Operator) (p q : Poly) :
    Agree (Poly.rename R) (bitwise e o p q) (bitwise (e.rename R) o (p.rename R) (q.rename R)) := by
  unfold bitwise
  rw [Poly.integer?_rename, Poly.integer?_rename]
  split
  · split
    · exact .pure (Poly.rename_const _).symm
    · exact ofAtom_rename (verbatim_rename e _)
  · exact ofAtom_rename (verbatim_rename e _)

theorem arithmetic_rename (mono : R.Monotone) (e : Expr) (o : Operator) (p q : Poly) :
    Agree (Poly.rename R) (arithmetic e o p q)
      (arithmetic (e.rename R) o (p.rename R) (q.rename R)) := by
  cases o
  case add => exact .pure (Poly.rename_add mono p q).symm
  case sub => exact .pure (Poly.rename_sub mono p q).symm
  case mul => exact .orOverflow (Poly.rename_mul? mono p q)
  case div => exact divide_rename e p q
  case mod => exact remainder_rename e p q
  case pow => exact power_rename mono e p q
  case bitAnd | bitOr | bitXor => exact bitwise_rename e _ p q
  all_goals exact .mismatch

theorem argument_rename (e arg : Expr) {x y : Attempt Poly} (agree : Agree (Poly.rename R) x y) :
    Agree (Option.map (Poly.rename R)) (argument e arg x)
      (argument (e.rename R) (arg.rename R) y) := by
  unfold argument
  rw [isBoolean_rename]
  split
  · exact .ok rfl rfl
  · cases agree with
    | ok left right =>
      rw [left, right]
      exact .ok rfl rfl
    | @error e e' left right kind =>
      rw [left, right]
      cases e <;> cases e' <;> first | cases kind; done | exact .ok rfl rfl | exact .error rfl rfl rfl

theorem single_rename {x y : Attempt (Option Poly)}
    (agree : Agree (Option.map (Poly.rename R)) x y) :
    Agree (Option.map (Poly.renameAll R)) (single x) (single y) :=
  agree.bind fun p => .pure (by cases p <;> rfl)

theorem application_rename (e : Expr) (head : Head) {x y : Attempt (Option (List Poly))}
    (agree : Agree (Option.map (Poly.renameAll R)) x y) :
    Agree (Atom.rename R) (application e head x) (application (e.rename R) (head.rename R) y) :=
  agree.bind fun ps => by cases ps <;> exact .pure rfl

mutual
/-- The polynomial of a renamed tree is the renamed polynomial. -/
theorem term_rename (mono : R.Monotone) : ∀ e : Expr,
    Agree (Poly.rename R) (term e) (term (e.rename R))
  | .ident _ => .pure rfl
  | .num digits => numeral_rename (.num digits) digits
  | .neg e => (term_rename mono e).bind fun p => .pure (Poly.rename_neg p).symm
  | .bool _ | .not _ => .mismatch
  | .call callee args => by
    cases callee with
    | ident f =>
      exact ofAtom_rename (application_rename (.call (.ident f) args) (.function f)
        (arguments_rename mono _ args))
    | _ => exact ofAtom_rename (verbatim_rename (.call _ args) _)
  | .index base key => by
    cases base with
    | ident m =>
      exact ofAtom_rename (application_rename (.index (.ident m) key) (.index m)
        (single_rename (argument_rename _ key (term_rename mono key))))
    | _ => exact ofAtom_rename (verbatim_rename (.index _ key) _)
  | .member base field => by
    cases base with
    | index base' key =>
      cases base' with
      | ident m =>
        exact ofAtom_rename (application_rename (.member (.index (.ident m) key) field)
          (.indexField m field) (single_rename (argument_rename _ key (term_rename mono key))))
      | _ => exact ofAtom_rename (verbatim_rename (.member (.index _ key) field) _)
    | _ => exact ofAtom_rename (verbatim_rename (.member _ field) _)
  | .op o args => by
    cases o
    case add | mul => exact joined_rename mono (.op _ args) _ args
    case sub | div | mod | pow | bitAnd | bitOr | bitXor =>
      match args with
      | [a, b] =>
        exact (term_rename mono a).bind fun p => (term_rename mono b).bind fun q =>
          arithmetic_rename mono (.op _ [a, b]) _ p q
      | [] | [_] | _ :: _ :: _ :: _ => exact .wrongOperandCount
    all_goals exact .mismatch

theorem joined_rename (mono : R.Monotone) (e : Expr) (o : Operator) : ∀ as : List Expr,
    Agree (Poly.rename R) (joined e o as) (joined (e.rename R) o (Expr.renameAll R as))
  | [] => .pure rfl
  | a :: as => (term_rename mono a).bind fun p => joinedTo_rename mono e o as p

theorem joinedTo_rename (mono : R.Monotone) (e : Expr) (o : Operator) : ∀ (as : List Expr)
    (p : Poly), Agree (Poly.rename R) (joinedTo e o p as)
      (joinedTo (e.rename R) o (p.rename R) (Expr.renameAll R as))
  | [], _ => .pure rfl
  | a :: as, p => (term_rename mono a).bind fun q => (arithmetic_rename mono e o p q).bind
      fun r => joinedTo_rename mono e o as r

theorem arguments_rename (mono : R.Monotone) (e : Expr) : ∀ as : List Expr,
    Agree (Option.map (Poly.renameAll R)) (arguments e as)
      (arguments (e.rename R) (Expr.renameAll R as))
  | [] => .pure rfl
  | a :: as => by
    rw [arguments, Expr.renameAll, arguments]
    refine (argument_rename e a (term_rename mono a)).bind fun p => ?_
    cases p with
    | none => exact .pure rfl
    | some p =>
      exact (arguments_rename mono e as).bind fun ps => .pure (by cases ps <;> rfl)
end

/-- The constraint of renamed polynomials is the renamed constraint. -/
theorem ofComparison_rename (mono : R.Monotone) (o : Operator) (p q : Poly) :
    Constraint.ofComparison o (p.rename R) (q.rename R) =
      (Constraint.ofComparison o p q).map (R.embedding mono) := by
  unfold Constraint.ofComparison
  dsimp only
  rw [← Poly.rename_sub mono, ← Poly.rename_withoutConstant, Poly.rename_primitive?,
    Poly.constantTerm_rename]
  cases (p - q).withoutConstant.primitive? with
  | none => rfl
  | some split =>
    obtain ⟨k, linear⟩ := split
    dsimp only [Option.map_some]
    split <;> rfl

theorem access_rename (mono : R.Monotone) (access : ∃ x, Accesses e x)
    (access' : ∃ y, Accesses (e.rename R) y) :
    Agree (Formula.map (R.embedding mono)) (formula e) (formula (e.rename R)) := by
  obtain ⟨x, access⟩ := access
  obtain ⟨y, access'⟩ := access'
  cases term_rename mono e with
  | ok left right =>
    obtain ⟨a, -, rfl⟩ := access.term_eq_ok left
    exact .ok (access.formula_eq_ok_iff.2 left) (access'.formula_eq_ok_iff.2 right)
  | error left right kind =>
    exact .error (access.formula_eq_error_iff.2 left) (access'.formula_eq_error_iff.2 right) kind

mutual
/-- The formula of a renamed tree is the renamed formula. -/
theorem formula_rename (mono : R.Monotone) : ∀ e : Expr,
    Agree (Formula.map (R.embedding mono)) (formula e) (formula (e.rename R))
  | .ident _ | .bool _ => .pure rfl
  | .num _ | .neg _ => .mismatch
  | .not e => (formula_rename mono e).bind fun _ => .pure rfl
  | .call callee args =>
    access_rename mono (Accesses.exists_call callee args) (Accesses.exists_call _ _)
  | .index base key =>
    access_rename mono (Accesses.exists_index base key) (Accesses.exists_index _ _)
  | .member base field =>
    access_rename mono (Accesses.exists_member base field) (Accesses.exists_member _ _)
  | .op o args => by
    by_cases rel : o.isRelational = true
    · match args with
      | [a, b] =>
        rw [Expr.rename, Expr.renameAll, Expr.renameAll, Expr.renameAll, formula_relation rel,
          formula_relation rel, isBoolean_rename, isBoolean_rename]
        split
        · refine (formula_rename mono a).bind fun f => (formula_rename mono b).bind fun g => ?_
          exact .pure (by split <;> rfl)
        · refine (term_rename mono a).bind fun p => (term_rename mono b).bind fun q => ?_
          exact .pure (ofComparison_rename mono o p q)
      | [] | [_] | _ :: _ :: _ :: _ =>
        cases o <;> first | cases rel; done | exact .wrongOperandCount
    · cases o <;> simp [Operator.isRelational] at rel
      case and | or => exact (formulas_rename mono args).bind fun _ => .pure rfl
      all_goals
        match args with
        | [] | [_] | [_, _] | _ :: _ :: _ :: _ => exact .mismatch

theorem formulas_rename (mono : R.Monotone) : ∀ es : List Expr,
    Agree (Formula.mapAll (R.embedding mono)) (formulas es) (formulas (Expr.renameAll R es))
  | [] => .pure rfl
  | e :: es => (formula_rename mono e).bind fun _ => (formulas_rename mono es).bind fun _ =>
      .pure rfl
end

end Conversion
end PredicateStrength
