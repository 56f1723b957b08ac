import Mathlib
import PredicateStrength.Proofs.Formula.OfExpr

/-!
# Conversion is exact

A well-sorted tree is converted unless an exponent does not fit its word: the parts that have no
symbolic meaning are kept as they stand, and no part stands where the other sort is expected. What
the conversion gives has the value of the tree.

Main statements: `Conversion.overflows_mul`, `Conversion.overflows_pow`,
`Conversion.exact_of_sorted`.
-/
namespace PredicateStrength
namespace Conversion

variable {α β : Type}

namespace Attempt

/-- An exponent that the conversion forms does not fit its word. -/
def Overflows (x : Attempt α) : Prop := ∃ node, x.result = .error (.exponentOverflow node)

/-- There is a result unless an exponent does not fit its word. -/
def Completes (x : Attempt α) : Prop := x.Overflows ∨ ∃ a, x.result = .ok a

theorem Completes.pure (a : α) : (pure a : Attempt α).Completes := .inr ⟨a, rfl⟩

theorem Completes.bind {x : Attempt α} {f : α → Attempt β} (first : x.Completes)
    (rest : ∀ a, x.result = .ok a → (f a).Completes) : (x >>= f).Completes := by
  rcases first with ⟨node, overflow⟩ | ⟨a, result⟩
  · exact .inl ⟨node, by rw [result_bind, overflow]; rfl⟩
  · rcases rest a result with ⟨node, overflow⟩ | ⟨b, final⟩
    · exact .inl ⟨node, by rw [result_bind, result]; exact overflow⟩
    · exact .inr ⟨b, bind_eq_ok.2 ⟨a, result, final⟩⟩

end Attempt

open Attempt

theorem completes_orOverflow (e : Expr) (x : Option α) : (orOverflow e x).Completes := by
  cases x with
  | none => exact .inl ⟨e.text, rfl⟩
  | some a => exact .inr ⟨a, rfl⟩

theorem overflows_orOverflow {e : Expr} {x : Option α} :
    (orOverflow e x).Overflows ↔ x = none := by
  cases x with
  | none => exact iff_of_true ⟨e.text, rfl⟩ rfl
  | some a => exact iff_of_false (by rintro ⟨node, ⟨⟩⟩) (by rintro ⟨⟩)

theorem completes_numeral (e : Expr) (digits : String) : (numeral e digits).Completes := by
  unfold numeral
  split <;> exact .pure _

section Arithmetic

variable (e : Expr) (p q : Poly)

theorem completes_divide : (divide e p q).Completes := by
  unfold divide
  repeat' split
  all_goals exact .pure _

theorem completes_remainder : (remainder e p q).Completes := by
  unfold remainder
  repeat' split
  all_goals exact .pure _

theorem completes_power : (power e p q).Completes := by
  unfold power
  generalize (if p.constant?.isSome then maxConstantExponent else maxSymbolicExponent) = limit
  dsimp only
  split
  · split
    · exact completes_orOverflow e _
    · exact .pure _
  · exact .pure _

theorem completes_bitwise (o : Operator) : (bitwise e o p q).Completes := by
  unfold bitwise
  repeat' split
  all_goals exact .pure _

theorem completes_arithmetic {o : Operator} (rel : o.isRelational = false)
    (logical : o.isLogical = false) : (arithmetic e o p q).Completes := by
  cases o <;> simp only [Operator.isRelational, Operator.isLogical, Bool.true_eq_false] at rel logical
  case add | sub => exact .pure _
  case mul => exact completes_orOverflow e _
  case div => exact completes_divide e p q
  case mod => exact completes_remainder e p q
  case pow => exact completes_power e p q
  case bitAnd | bitOr | bitXor => exact completes_bitwise e p q _

/-- A product overflows where the exponents of an atom, in a term of either factor, add up to one
that does not fit. -/
theorem overflows_mul : (arithmetic e .mul p q).Overflows ↔
    ∃ t ∈ p.terms, ∃ u ∈ q.terms, ∃ f ∈ u.monomial.factors,
      Monomial.exponentLimit ≤ t.monomial.exponent f.atom + f.exponent := by
  rw [arithmetic, overflows_orOverflow, Poly.mul?_eq_none]
  simp [Poly.mulFits, Monomial.mulFits]

/-- A power overflows where one of the products on the way to it does. -/
theorem overflows_pow : (arithmetic e .pow p q).Overflows ↔
    ∃ n : Nat, q.integer? = some (n : Int) ∧
      n ≤ (if p.constant?.isSome then maxConstantExponent else maxSymbolicExponent) ∧
      ∃ k < n, (arithmetic e .mul (p.pow k) p).Overflows := by
  have products {n : Nat} :
      p.pow? n = none ↔ ∃ k < n, (arithmetic e .mul (p.pow k) p).Overflows := by
    simp only [Poly.pow?_eq_none, arithmetic, overflows_orOverflow, Poly.mul?_eq_none]
  have kept (reason : String) :
      ¬(verbatim e reason >>= fun a => pure (Poly.ofAtom a) : Attempt Poly).Overflows := by
    rintro ⟨node, ⟨⟩⟩
  rw [arithmetic, power]
  generalize (if p.constant?.isSome then maxConstantExponent else maxSymbolicExponent) = limit
  cases exponent : q.integer? with
  | none => simp [kept]
  | some n =>
    dsimp only
    by_cases small : 0 ≤ n ∧ n ≤ (limit : Int)
    · obtain ⟨k, rfl⟩ := Int.eq_ofNat_of_zero_le small.1
      rw [if_pos small, overflows_orOverflow, Int.toNat_natCast, products]
      simp [Int.ofNat_le.1 small.2]
    · rw [if_neg small]
      refine iff_of_false (kept _) ?_
      rintro ⟨k, same, le, -⟩
      cases same
      exact small ⟨Int.natCast_nonneg k, Int.ofNat_le.2 le⟩

end Arithmetic

/-- An argument is converted or leaves the application as it stands, whatever its sort is. -/
theorem completes_argument (e arg : Expr) (x : Attempt Poly) : (argument e arg x).Completes := by
  unfold argument
  split
  · exact .inr ⟨none, rfl⟩
  · split
    · exact .inr ⟨_, rfl⟩
    · exact .inl ⟨_, rfl⟩
    · exact .inr ⟨none, rfl⟩

theorem completes_arguments (e : Expr) (args : List Expr) : (arguments e args).Completes := by
  induction args with
  | nil => exact .pure _
  | cons a as ih =>
    rw [arguments]
    refine .bind (completes_argument e a (term a)) fun p _ => ?_
    cases p with
    | none => exact .pure _
    | some p => exact .bind ih fun _ _ => .pure _

theorem completes_single {x : Attempt (Option Poly)} (h : x.Completes) : (single x).Completes :=
  .bind h fun _ _ => .pure _

theorem completes_application {e : Expr} {head : Head} {args : Attempt (Option (List Poly))}
    (h : args.Completes) : (application e head args).Completes := by
  refine .bind h fun ps _ => ?_
  cases ps <;> exact .pure _

section Sorts

variable {σ : Signature} {idiom : String → Option (Option Path)}

/-- The operands of an operation that gives a number are numbers. -/
theorem operate_eq_integer {o : Operator} {ss : List ValueSort}
    (h : Signature.operate o ss = some .integer) :
    o.isRelational = false ∧ o.isLogical = false ∧ ∀ s ∈ ss, s = .integer := by
  cases o <;> simp [Signature.operate, Operator.isRelational, Operator.isLogical] at h ⊢
  case add => exact h
  case mul => exact h.1
  all_goals simp [h]

/-- The operands of an operation that gives a truth value are of one sort. -/
theorem operate_eq_boolean {o : Operator} {ss : List ValueSort}
    (h : Signature.operate o ss = some .boolean) :
    (o.isLogical = true ∧ ∀ s ∈ ss, s = .boolean) ∨
      (o.isRelational = true ∧ ∃ s, ss = [s, s] ∧ (s = .boolean → o = .eq ∨ o = .ne)) := by
  cases o <;> simp [Signature.operate, Operator.isRelational, Operator.isLogical] at h ⊢
  case or | and => exact h
  case eq | ne =>
    by_cases integers : ss = [.integer, .integer]
    · exact ⟨_, integers⟩
    · exact ⟨_, h integers⟩
  all_goals exact ⟨_, h, by simp⟩

/-- A truth value by its shape is one by its sort. -/
theorem sortAt_of_isBoolean {e : Expr} {p : Path} (path : σ.pathWith idiom e = some p)
    (root : e.isBoolean = true) : σ.sortAt p = .boolean := by
  cases e <;> simp only [Expr.isBoolean, Bool.false_eq_true, Bool.or_eq_true] at root
  case bool b =>
    cases path
    rfl
  case not e =>
    obtain ⟨q, -, path⟩ := Option.bind_eq_some_iff.1 path
    simp only [Option.ite_none_right_eq_some, Option.some.injEq] at path
    rw [← path.2, Signature.sortAt]
  case op o args =>
    obtain ⟨ss, -, path⟩ := Option.bind_eq_some_iff.1 path
    obtain ⟨s, sort, rfl⟩ := Option.map_eq_some_iff.1 path
    cases s with
    | boolean => rfl
    | integer => simp [operate_eq_integer sort] at root

theorem isBoolean_eq_false {e : Expr} {p : Path} (path : σ.pathWith idiom e = some p)
    (sort : σ.sortAt p = .integer) : e.isBoolean = false := by
  by_contra root
  rw [sortAt_of_isBoolean path (Bool.not_eq_false _ ▸ root)] at sort
  cases sort

theorem sortsWith_pair {a b : Expr} {ss : List ValueSort} :
    σ.sortsWith idiom [a, b] = some ss ↔ ∃ p q, σ.pathWith idiom a = some p ∧
      σ.pathWith idiom b = some q ∧ ss = [σ.sortAt p, σ.sortAt q] := by
  simp [Signature.sortsWith, Option.bind_eq_some_iff, @eq_comm _ ss]

theorem length_sortsWith {es : List Expr} {ss : List ValueSort}
    (h : σ.sortsWith idiom es = some ss) : ss.length = es.length := by
  induction es generalizing ss with
  | nil =>
    cases h
    rfl
  | cons e es ih =>
    obtain ⟨p, -, h⟩ := Option.bind_eq_some_iff.1 h
    obtain ⟨ts, later, rfl⟩ := Option.map_eq_some_iff.1 h
    rw [List.length_cons, List.length_cons, ih later]

mutual
/-- A tree that is no truth value by its shape is converted to a polynomial. -/
theorem completes_term : ∀ {e : Expr} {p : Path}, σ.pathWith idiom e = some p →
    e.isBoolean = false → (term e).Completes
  | .ident _, _, _, _ => .pure _
  | .num _, _, _, _ => completes_numeral _ _
  | .neg e, p, path, _ => by
    obtain ⟨q, operand, path⟩ := Option.bind_eq_some_iff.1 path
    simp only [Option.ite_none_right_eq_some] at path
    exact .bind (completes_term operand (isBoolean_eq_false operand path.1)) fun _ _ => .pure _
  | .call callee args, _, _, _ => by
    cases callee with
    | ident f => exact .bind (completes_application (completes_arguments _ args)) fun _ _ => .pure _
    | _ => exact .pure _
  | .index base key, _, _, _ => by
    cases base with
    | ident m => exact .bind (completes_application
        (completes_single (completes_argument _ _ _))) fun _ _ => .pure _
    | _ => exact .pure _
  | .member base field, _, _, _ => by
    cases base with
    | index base' key =>
      cases base' with
      | ident m => exact .bind (completes_application
          (completes_single (completes_argument _ _ _))) fun _ _ => .pure _
      | _ => exact .pure _
    | _ => exact .pure _
  | .op o args, p, path, root => by
    obtain ⟨ss, sorts, path⟩ := Option.bind_eq_some_iff.1 path
    obtain ⟨s, sort, rfl⟩ := Option.map_eq_some_iff.1 path
    cases s with
    | boolean =>
      simp only [Expr.isBoolean, Bool.or_eq_false_iff] at root
      rcases operate_eq_boolean sort with ⟨logical, -⟩ | ⟨rel, -⟩
      · cases root.2.symm.trans logical
      · cases root.1.symm.trans rel
    | integer =>
      obtain ⟨rel, logical, numbers⟩ := operate_eq_integer sort
      cases o
      case add | mul => exact completes_joined rfl rfl sorts numbers
      case sub | div | mod | pow | bitAnd | bitOr | bitXor =>
        match args, sorts with
        | [a, b], sorts =>
          obtain ⟨p, q, left, right, rfl⟩ := sortsWith_pair.1 sorts
          simp only [List.forall_mem_cons] at numbers
          exact .bind (completes_term left (isBoolean_eq_false left numbers.1)) fun r _ =>
            .bind (completes_term right (isBoolean_eq_false right numbers.2.1)) fun t _ =>
              completes_arithmetic _ r t rel logical
        | [], sorts | [_], sorts | _ :: _ :: _ :: _, sorts =>
          have pair := length_sortsWith sorts
          simp_all [Signature.operate]
      all_goals cases rel <;> cases logical

theorem completes_joined {e : Expr} {o : Operator} (rel : o.isRelational = false)
    (logical : o.isLogical = false) : ∀ {as : List Expr} {ss : List ValueSort},
      σ.sortsWith idiom as = some ss → (∀ s ∈ ss, s = .integer) → (joined e o as).Completes
  | [], _, _, _ => .pure _
  | a :: as, ss, sorts, numbers => by
    obtain ⟨p, path, sorts⟩ := Option.bind_eq_some_iff.1 sorts
    obtain ⟨ts, later, rfl⟩ := Option.map_eq_some_iff.1 sorts
    rw [List.forall_mem_cons] at numbers
    exact .bind (completes_term path (isBoolean_eq_false path numbers.1)) fun q _ =>
      completes_joinedTo rel logical later numbers.2

theorem completes_joinedTo {e : Expr} {o : Operator} (rel : o.isRelational = false)
    (logical : o.isLogical = false) : ∀ {as : List Expr} {ss : List ValueSort} {q : Poly},
      σ.sortsWith idiom as = some ss → (∀ s ∈ ss, s = .integer) → (joinedTo e o q as).Completes
  | [], _, _, _, _ => .pure _
  | a :: as, ss, q, sorts, numbers => by
    obtain ⟨p, path, sorts⟩ := Option.bind_eq_some_iff.1 sorts
    obtain ⟨ts, later, rfl⟩ := Option.map_eq_some_iff.1 sorts
    rw [List.forall_mem_cons] at numbers
    exact .bind (completes_term path (isBoolean_eq_false path numbers.1)) fun r _ =>
      .bind (completes_arithmetic e q r rel logical) fun _ _ =>
        completes_joinedTo rel logical later numbers.2
end

theorem completes_access {e : Expr} (access : ∃ x, Accesses e x) (h : (term e).Completes) :
    (formula e).Completes := by
  obtain ⟨x, access⟩ := access
  rcases h with ⟨node, overflow⟩ | ⟨p, result⟩
  · exact .inl ⟨node, access.formula_eq_error_iff.2 overflow⟩
  · refine .inr ?_
    cases outcome : (formula e).result with
    | ok f => exact ⟨f, rfl⟩
    | error cause => cases result.symm.trans (access.formula_eq_error_iff.1 outcome)

mutual
/-- A tree that is a truth value is converted to a formula. -/
theorem completes_formula : ∀ {e : Expr} {p : Path}, σ.pathWith idiom e = some p →
    σ.sortAt p = .boolean → (formula e).Completes
  | .ident _, _, _, _ => .pure _
  | .bool _, _, _, _ => .pure _
  | .num digits, p, path, sort => by
    simp only [Signature.pathWith, Option.ite_none_right_eq_some, Option.some.injEq] at path
    cases path.2 ▸ sort
  | .neg e, p, path, sort => by
    obtain ⟨q, -, path⟩ := Option.bind_eq_some_iff.1 path
    simp only [Option.ite_none_right_eq_some, Option.some.injEq] at path
    cases path.2 ▸ sort
  | .not e, p, path, _ => by
    obtain ⟨q, operand, path⟩ := Option.bind_eq_some_iff.1 path
    simp only [Option.ite_none_right_eq_some] at path
    exact .bind (completes_formula operand path.1) fun _ _ => .pure _
  | .call callee args, p, path, _ =>
    completes_access (Accesses.exists_call callee args) (completes_term path rfl)
  | .index base key, p, path, _ =>
    completes_access (Accesses.exists_index base key) (completes_term path rfl)
  | .member base field, p, path, _ =>
    completes_access (Accesses.exists_member base field) (completes_term path rfl)
  | .op o args, p, path, sort => by
    obtain ⟨ss, sorts, path⟩ := Option.bind_eq_some_iff.1 path
    obtain ⟨s, operation, rfl⟩ := Option.map_eq_some_iff.1 path
    cases sort
    rcases operate_eq_boolean operation with ⟨logical, truths⟩ | ⟨rel, t, rfl, equality⟩
    · have operands := completes_formulas sorts truths
      cases o <;> cases logical <;> exact .bind operands fun _ _ => .pure _
    · match args, sorts with
      | [a, b], sorts =>
        obtain ⟨p, q, left, right, same⟩ := sortsWith_pair.1 sorts
        obtain ⟨first, second⟩ : t = σ.sortAt p ∧ t = σ.sortAt q := by simpa using same
        rw [formula_relation rel]
        split
        · next shapes =>
          -- One side is a truth value by its shape, and the other one has the same sort.
          have truth : t = .boolean := shapes.2.elim
            (fun root => first.trans (sortAt_of_isBoolean left root))
            (fun root => second.trans (sortAt_of_isBoolean right root))
          exact .bind (completes_formula left (first.symm.trans truth)) fun _ _ =>
            .bind (completes_formula right (second.symm.trans truth)) fun _ _ => .pure _
        · next shapes =>
          have plain {e : Expr} {r : Path} (path : σ.pathWith idiom e = some r)
              (side : t = σ.sortAt r) (mem : e = a ∨ e = b) : e.isBoolean = false := by
            by_contra root
            rw [Bool.not_eq_false] at root
            refine shapes ⟨equality (side.trans (sortAt_of_isBoolean path root)), ?_⟩
            rcases mem with rfl | rfl
            · exact .inl root
            · exact .inr root
          exact .bind (completes_term left (plain left first (.inl rfl))) fun _ _ =>
            .bind (completes_term right (plain right second (.inr rfl))) fun _ _ => .pure _
      | [], sorts | [_], sorts | _ :: _ :: _ :: _, sorts => cases length_sortsWith sorts

theorem completes_formulas : ∀ {es : List Expr} {ss : List ValueSort},
    σ.sortsWith idiom es = some ss → (∀ s ∈ ss, s = .boolean) → (formulas es).Completes
  | [], _, _, _ => .pure _
  | e :: es, ss, sorts, truths => by
    obtain ⟨p, path, sorts⟩ := Option.bind_eq_some_iff.1 sorts
    obtain ⟨ts, later, rfl⟩ := Option.map_eq_some_iff.1 sorts
    rw [List.forall_mem_cons] at truths
    exact .bind (completes_formula path truths.1) fun _ _ =>
      .bind (completes_formulas later truths.2) fun _ _ => .pure _
end

end Sorts

/-- The conversion of a well-sorted tree fails only where an exponent does not fit its word, and
what it gives means the same as the tree under every interpretation of the names by integers and
truth values. -/
theorem exact_of_sorted (σ : Signature) (e : Expr) :
    (σ.sort? e = some .boolean → ¬e.toFormula.Overflows →
      ∃ f, e.toFormula.result = .ok f ∧ ∀ I : Interp Int, I.Respects σ → I.Arithmetical →
        (f.Holds I.valuation ↔ I.Satisfies e)) ∧
    (σ.sort? e = some .integer → ¬e.toPoly.Overflows →
      ∃ p, e.toPoly.result = .ok p ∧ ∀ I : Interp Int, I.Respects σ → I.Arithmetical →
        ∃ n : Int, I.value? e = some (.num n) ∧ I.valuation.value p = n) := by
  constructor <;> intro sorted fits <;> obtain ⟨path, found, sort⟩ := Option.map_eq_some_iff.1 sorted
  · obtain ⟨f, result⟩ := (completes_formula found sort).resolve_left fits
    refine ⟨f, result, fun I resp arith => ?_⟩
    obtain ⟨v, value, isBool⟩ := resp.value? sorted
    obtain ⟨b, rfl⟩ := Value.isBool_iff_exists.1 (Value.sort_eq_boolean.1 isBool)
    rw [(formula_sound arith value result).holds, Interp.Satisfies, value, Option.some.injEq,
      Value.bool.injEq]
  · obtain ⟨p, result⟩ :=
      (completes_term found (isBoolean_eq_false found sort)).resolve_left fits
    refine ⟨p, result, fun I resp arith => ?_⟩
    obtain ⟨v, value, isNum⟩ := resp.value? sorted
    obtain ⟨n, rfl⟩ := Value.isNum_iff_exists.1 (Value.sort_eq_integer.1 isNum)
    exact ⟨n, value, (term_sound arith value result).value⟩

/-- The names of flags are truth values, all other places numbers. -/
def flagNames : Path → ValueSort
  | .name n => if n = "paused" ∨ n = "locked" then .boolean else .integer
  | _ => .integer

/-- Both flags are set, all other places are seven. -/
def flagsSet : Interp Int := .standard fun
  | .name n => if n = "paused" ∨ n = "locked" then .bool true else .num 7
  | _ => .num 7

theorem respects_flagsSet :
    flagsSet.Respects ⟨flagNames, fun digits => (flagsSet.literal? digits).isSome⟩ := by
  refine ⟨fun p => ?_, fun _ => rfl⟩
  cases p with
  | name n =>
    show Value.sort (ite _ _ _) = ite _ _ _
    split <;> rfl
  | _ => rfl

theorem exact_of_sorted_flagsSet :
    ∃ f, (Expr.toFormula (.op .and [.op .ge [.op .div [.ident "x", .num "2"], .num "3"],
        .op .eq [.ident "paused", .ident "locked"]])).result = .ok f ∧
      f.Holds flagsSet.valuation := by
  have exact := exact_of_sorted ⟨flagNames, fun digits => (flagsSet.literal? digits).isSome⟩
    (.op .and [.op .ge [.op .div [.ident "x", .num "2"], .num "3"],
      .op .eq [.ident "paused", .ident "locked"]])
  obtain ⟨f, result, holds⟩ := exact.1 (by cbv) (by rintro ⟨node, ⟨⟩⟩)
  exact ⟨f, result, (holds flagsSet respects_flagsSet Interp.arithmetical_standard).2 (by cbv)⟩

end Conversion
end PredicateStrength
