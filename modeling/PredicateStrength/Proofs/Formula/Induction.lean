import Mathlib
import PredicateStrength.Formula.OfExpr
import PredicateStrength.Proofs.Expr.Meaning
import PredicateStrength.Proofs.Expr.Traversal

/-!
# Induction along a conversion

A tree that is converted has operands that are: its polynomial or formula is made of theirs in one
of a few ways, one for each way in which `Conversion.term` and `Conversion.formula` succeed. So a
relation between trees and what they are converted to holds if each of these ways keeps it.

Main statements: `Conversion.TermCases.term` and `Conversion.FormulaCases.formula`.
-/
namespace PredicateStrength
namespace Conversion
open Attempt

section Rows

variable {α β γ : Type} {R S : α → β → Prop} {as : List α} {bs : List β}

theorem forall₂_of_mem (h : List.Forall₂ R as bs) (imp : ∀ a ∈ as, ∀ b, R a b → S a b) :
    List.Forall₂ S as bs :=
  ((List.forall₂_and_left as bs).2 ⟨imp, h⟩).imp fun _ b both => both.1 b both.2

theorem forall_right {P : β → Prop} (h : List.Forall₂ R as bs)
    (imp : ∀ a ∈ as, ∀ b, R a b → P b) : ∀ b ∈ bs, P b := by
  induction h with
  | nil => nofun
  | cons first _ ih =>
    exact List.forall_mem_cons.2 ⟨imp _ (.head _) _ first, ih fun a mem => imp a (.tail _ mem)⟩

/-- Two rows that stand beside one row stand beside each other. -/
theorem forall₂_beside {T : α → γ → Prop} {U : β → γ → Prop} {cs : List γ}
    (h : List.Forall₂ R as bs) (h' : List.Forall₂ T as cs)
    (imp : ∀ a b c, R a b → T a c → U b c) : List.Forall₂ U bs cs := by
  induction h generalizing cs with
  | nil =>
    cases h'
    exact .nil
  | cons first _ ih =>
    cases h' with
    | cons first' rest' => exact .cons (imp _ _ _ first first') (ih rest')

end Rows

theorem Attempt.bind_eq_ok {α β : Type} {x : Attempt α} {f : α → Attempt β} {b : β} :
    (x >>= f).result = .ok b ↔ ∃ a, x.result = .ok a ∧ (f a).result = .ok b := by
  rw [result_bind]
  cases x.result <;> simp [Except.bind]

theorem orOverflow_eq_ok {α : Type} {e : Expr} {x : Option α} {a : α} :
    (orOverflow e x).result = .ok a ↔ x = some a := by
  cases x <;> simp [orOverflow, Attempt.fail]

theorem application_eq_ok {e : Expr} {head : Head} {args : Attempt (Option (List Poly))} {a : Atom}
    (h : (application e head args).result = .ok a) :
    (∃ ps, args.result = .ok (some ps) ∧ a = .app head ps) ∨ a = .verbatim e := by
  obtain ⟨ps, result, h⟩ := Attempt.bind_eq_ok.1 h
  cases ps with
  | none => exact .inr (Except.ok.inj h).symm
  | some ps => exact .inl ⟨ps, result, (Except.ok.inj h).symm⟩

theorem argument_eq_ok {e arg : Expr} {x : Attempt Poly} {p : Poly}
    (h : (argument e arg x).result = .ok (some p)) : x.result = .ok p := by
  unfold argument at h
  split at h
  · cases h
  · split at h
    · next q result =>
      cases h
      exact result
    · cases h
    · cases h

theorem single_eq_ok {x : Attempt (Option Poly)} {ps : List Poly}
    (h : (single x).result = .ok (some ps)) : ∃ p, x.result = .ok (some p) ∧ ps = [p] := by
  obtain ⟨q, result, h⟩ := Attempt.bind_eq_ok.1 h
  obtain ⟨p, rfl, rfl⟩ := Option.map_eq_some_iff.1 (Except.ok.inj h)
  exact ⟨p, result, rfl⟩

/-- The tree is converted to the polynomial. -/
abbrev IsTerm (e : Expr) (p : Poly) : Prop := (term e).result = .ok p

/-- The tree is converted to the formula. -/
abbrev IsFormula (e : Expr) (f : Formula) : Prop := (formula e).result = .ok f

theorem arguments_eq_ok {e : Expr} {as : List Expr} {ps : List Poly}
    (h : (arguments e as).result = .ok (some ps)) : List.Forall₂ IsTerm as ps := by
  induction as generalizing ps with
  | nil =>
    cases h
    exact .nil
  | cons a as ih =>
    rw [arguments] at h
    obtain ⟨first, result, h⟩ := Attempt.bind_eq_ok.1 h
    cases first with
    | none => cases h
    | some p =>
      obtain ⟨rest, later, h⟩ := Attempt.bind_eq_ok.1 h
      obtain ⟨qs, rfl, rfl⟩ := Option.map_eq_some_iff.1 (Except.ok.inj h)
      exact .cons (argument_eq_ok result) (ih later)

theorem key_eq_ok {e key : Expr} {ps : List Poly}
    (h : (single (argument e key (term key))).result = .ok (some ps)) :
    List.Forall₂ IsTerm [key] ps := by
  obtain ⟨p, result, rfl⟩ := single_eq_ok h
  exact .cons (argument_eq_ok result) .nil

/-- The operands of a sum or product are converted one by one, and joined from the left. -/
theorem joinedTo_eq_ok {e : Expr} {o : Operator} {as : List Expr} {p q : Poly}
    (h : (joinedTo e o p as).result = .ok q) :
    ∃ ps, List.Forall₂ IsTerm as ps ∧ (ps.foldlM (arithmetic e o) p).result = .ok q := by
  induction as generalizing p with
  | nil => exact ⟨[], .nil, h⟩
  | cons a as ih =>
    obtain ⟨r, next, h⟩ := Attempt.bind_eq_ok.1 h
    obtain ⟨s, fused, h⟩ := Attempt.bind_eq_ok.1 h
    obtain ⟨ps, others, result⟩ := ih h
    exact ⟨r :: ps, .cons next others, Attempt.bind_eq_ok.2 ⟨s, fused, result⟩⟩

theorem formulas_eq_ok {es : List Expr} {fs : List Formula} :
    (formulas es).result = .ok fs ↔ List.Forall₂ IsFormula es fs := by
  induction es generalizing fs with
  | nil =>
    show Except.ok [] = Except.ok fs ↔ _
    simp [eq_comm]
  | cons e es ih =>
    rw [formulas, Attempt.bind_eq_ok, List.forall₂_cons_left_iff]
    simp only [Attempt.bind_eq_ok, ih]
    constructor
    · rintro ⟨f, first, gs, rest, same⟩
      exact ⟨f, gs, first, rest, (Except.ok.inj same).symm⟩
    · rintro ⟨f, gs, first, rest, rfl⟩
      exact ⟨f, first, gs, rest, rfl⟩

/-- What every step of a fold keeps, given what is true of the operands. -/
theorem foldlM_keeps {P Q : Poly → Prop} {step : Poly → Poly → Attempt Poly} {ps : List Poly}
    (operands : ∀ q ∈ ps, Q q)
    (keeps : ∀ {p q r}, P p → Q q → (step p q).result = .ok r → P r) {p r : Poly} (start : P p)
    (h : (ps.foldlM step p).result = .ok r) : P r := by
  induction ps generalizing p with
  | nil =>
    cases h
    exact start
  | cons q ps ih =>
    obtain ⟨first, rest⟩ := List.forall_mem_cons.1 operands
    obtain ⟨s, result, h⟩ := Attempt.bind_eq_ok.1 h
    exact ih rest (keeps start first result) h

/-- The tree applies the head to the arguments. -/
inductive IsApplication : Expr → Head → List Expr → Prop
  | call (f : String) (args : List Expr) :
    IsApplication (.call (.ident f) args) (.function f) args
  | index (m : String) (key : Expr) : IsApplication (.index (.ident m) key) (.index m) [key]
  | indexField (m field : String) (key : Expr) :
    IsApplication (.member (.index (.ident m) key) field) (.indexField m field) [key]

theorem IsApplication.sizeOf_lt {e : Expr} {head : Head} {args : List Expr}
    (h : IsApplication e head args) {a : Expr} (mem : a ∈ args) : sizeOf a < sizeOf e := by
  cases h with
  | call f =>
    have smaller := List.sizeOf_lt_of_mem mem
    simp only [Expr.call.sizeOf_spec]
    omega
  | index m key | indexField m field key =>
    cases List.mem_singleton.1 mem
    simp only [Expr.index.sizeOf_spec, Expr.member.sizeOf_spec]
    omega

/-- The atom for a call, an element or a member: a head with polynomials that `R` relates to its
arguments, or the tree as it stands. -/
inductive Access (R : Expr → Poly → Prop) : Expr → Atom → Prop
  | application {e : Expr} {head : Head} {args : List Expr} {ps : List Poly}
    (shape : IsApplication e head args) (operands : List.Forall₂ R args ps) :
    Access R e (.app head ps)
  | call (f : Expr) (args : List Expr) : Access R (.call f args) (.verbatim (.call f args))
  | index (base key : Expr) : Access R (.index base key) (.verbatim (.index base key))
  | member (base : Expr) (field : String) :
    Access R (.member base field) (.verbatim (.member base field))

theorem Access.imp {R S : Expr → Poly → Prop} {e : Expr} {a : Atom} (h : Access R e a)
    (imp : ∀ c p, sizeOf c < sizeOf e → R c p → S c p) : Access S e a := by
  cases h with
  | application shape operands =>
    exact .application shape (forall₂_of_mem operands fun c mem p => imp c p (shape.sizeOf_lt mem))
  | call f args => exact .call f args
  | index base key => exact .index base key
  | member base field => exact .member base field

/-- The tree is converted to an atom, as a term and as a formula. -/
structure Accesses (e : Expr) (x : Attempt Atom) : Prop where
  term : term e = do return .ofAtom (← x)
  formula : formula e = do return .prop (← x)
  access : ∀ {a : Atom}, x.result = .ok a → Access IsTerm e a

namespace Accesses

variable {e : Expr} {x : Attempt Atom}

theorem of_application {head : Head} {args : List Expr} {y : Attempt (Option (List Poly))}
    (shape : IsApplication e head args)
    (operands : ∀ {ps}, y.result = .ok (some ps) → List.Forall₂ IsTerm args ps)
    (kept : Access IsTerm e (.verbatim e))
    (term : Conversion.term e = do return .ofAtom (← application e head y))
    (formula : Conversion.formula e = do return .prop (← application e head y)) :
    Accesses e (application e head y) where
  term := term
  formula := formula
  access result := by
    rcases application_eq_ok result with ⟨ps, args, rfl⟩ | rfl
    · exact .application shape (operands args)
    · exact kept

theorem of_verbatim {reason : String} (kept : Access IsTerm e (.verbatim e))
    (term : Conversion.term e = do return .ofAtom (← verbatim e reason))
    (formula : Conversion.formula e = do return .prop (← verbatim e reason)) :
    Accesses e (verbatim e reason) where
  term := term
  formula := formula
  access result := by
    cases result
    exact kept

theorem exists_call (f : Expr) (args : List Expr) : ∃ x, Accesses (.call f args) x := by
  cases f with
  | ident f => exact ⟨_, .of_application (.call f args) arguments_eq_ok (.call ..) rfl rfl⟩
  | _ => exact ⟨_, .of_verbatim (.call ..) rfl rfl⟩

theorem exists_index (base key : Expr) : ∃ x, Accesses (.index base key) x := by
  cases base with
  | ident m => exact ⟨_, .of_application (.index m key) key_eq_ok (.index ..) rfl rfl⟩
  | _ => exact ⟨_, .of_verbatim (.index ..) rfl rfl⟩

theorem exists_member (base : Expr) (field : String) : ∃ x, Accesses (.member base field) x := by
  cases base with
  | index base key =>
    cases base with
    | ident m =>
      exact ⟨_, .of_application (.indexField m field key) key_eq_ok (.member ..) rfl rfl⟩
    | _ => exact ⟨_, .of_verbatim (.member ..) rfl rfl⟩
  | _ => exact ⟨_, .of_verbatim (.member ..) rfl rfl⟩

theorem term_eq_ok (h : Accesses e x) {p : Poly} (result : IsTerm e p) :
    ∃ a, Access IsTerm e a ∧ p = .ofAtom a := by
  rw [IsTerm, h.term] at result
  obtain ⟨a, atom, result⟩ := Attempt.bind_eq_ok.1 result
  exact ⟨a, h.access atom, (Except.ok.inj result).symm⟩

theorem formula_eq_ok (h : Accesses e x) {f : Formula} (result : IsFormula e f) :
    ∃ a, Access IsTerm e a ∧ f = .prop a := by
  rw [IsFormula, h.formula] at result
  obtain ⟨a, atom, result⟩ := Attempt.bind_eq_ok.1 result
  exact ⟨a, h.access atom, (Except.ok.inj result).symm⟩

theorem formula_eq_ok_iff (h : Accesses e x) {a : Atom} :
    IsFormula e (.prop a) ↔ IsTerm e (.ofAtom a) := by
  rw [IsFormula, IsTerm, h.formula, h.term, result_bind, result_bind]
  cases x.result <;> simp [Except.bind, Poly.ofAtom, Monomial.ofAtom]

/-- It fails as a formula exactly if it does as a term, and for the same reason. -/
theorem formula_eq_error_iff (h : Accesses e x) {cause : ConversionError} :
    (Conversion.formula e).result = .error cause ↔ (Conversion.term e).result = .error cause := by
  rw [h.formula, h.term, result_bind, result_bind]
  cases x.result <;> simp [Except.bind]

end Accesses

/-- The ways in which a tree comes to its polynomial. Where the tree can be kept as it stands, its
own conversion is at hand too. -/
structure TermCases (R : Expr → Poly → Prop) : Prop where
  name : ∀ x : String, R (.ident x) (.symbol x)
  numeral : ∀ {digits : String} {p : Poly}, IsTerm (.num digits) p → R (.num digits) p
  neg : ∀ {e : Expr} {p : Poly}, R e p → R (.neg e) (-p)
  access : ∀ {e : Expr} {a : Atom}, Access R e a → IsTerm e (.ofAtom a) → R e (.ofAtom a)
  empty : ∀ {o : Operator}, o = .add ∨ o = .mul → R (.op o []) .zero
  joined : ∀ {o : Operator} {a : Expr} {as : List Expr} {p q : Poly} {ps : List Poly},
    o = .add ∨ o = .mul → R a p → List.Forall₂ R as ps →
      (ps.foldlM (arithmetic (.op o (a :: as)) o) p).result = .ok q → R (.op o (a :: as)) q
  pair : ∀ {o : Operator} {a b : Expr} {p q r : Poly}, (o == .sub || o.isFree) = true →
    R a p → R b q → (arithmetic (.op o [a, b]) o p q).result = .ok r →
      IsTerm (.op o [a, b]) r → R (.op o [a, b]) r

theorem sum_eq_ok {o : Operator} (sum : o = .add ∨ o = .mul) {a : Expr} {as : List Expr} {q : Poly}
    (h : IsTerm (.op o (a :: as)) q) : ∃ p ps, IsTerm a p ∧ List.Forall₂ IsTerm as ps ∧
      (ps.foldlM (arithmetic (.op o (a :: as)) o) p).result = .ok q := by
  have joins : term (.op o (a :: as)) = joined (.op o (a :: as)) o (a :: as) := by
    rcases sum with rfl | rfl <;> rfl
  rw [IsTerm, joins] at h
  obtain ⟨p, first, h⟩ := Attempt.bind_eq_ok.1 h
  obtain ⟨ps, rest, result⟩ := joinedTo_eq_ok h
  exact ⟨p, ps, first, rest, result⟩

theorem pair_eq_ok {o : Operator} (binary : (o == .sub || o.isFree) = true) {args : List Expr}
    {r : Poly} (h : IsTerm (.op o args) r) : ∃ a b p q, args = [a, b] ∧ IsTerm a p ∧ IsTerm b q ∧
      (arithmetic (.op o [a, b]) o p q).result = .ok r := by
  match args with
  | [a, b] =>
    have steps : term (.op o [a, b]) =
        (do let p ← term a; let q ← term b; arithmetic (.op o [a, b]) o p q) := by
      cases o <;> first | rfl | cases binary
    rw [IsTerm, steps] at h
    obtain ⟨p, left, h⟩ := Attempt.bind_eq_ok.1 h
    obtain ⟨q, right, h⟩ := Attempt.bind_eq_ok.1 h
    exact ⟨a, b, p, q, rfl, left, right, h⟩
  | [] | [_] | _ :: _ :: _ :: _ => cases o <;> first | cases binary; done | cases h

namespace TermCases

variable {R : Expr → Poly → Prop} {o : Operator} {args : List Expr} {p : Poly}

theorem of_sum (cases : TermCases R) (sum : o = .add ∨ o = .mul)
    (operands : ∀ a ∈ args, ∀ q, IsTerm a q → R a q) (h : IsTerm (.op o args) p) :
    R (.op o args) p := by
  match args with
  | [] =>
    have zero : p = .zero := by
      rcases sum with rfl | rfl <;> exact (Except.ok.inj h).symm
    exact zero ▸ cases.empty sum
  | a :: as =>
    obtain ⟨q, qs, first, rest, result⟩ := sum_eq_ok sum h
    obtain ⟨here, others⟩ := List.forall_mem_cons.1 operands
    exact cases.joined sum (here q first) (forall₂_of_mem rest others) result

theorem of_pair (cases : TermCases R) (binary : (o == .sub || o.isFree) = true)
    (operands : ∀ a ∈ args, ∀ q, IsTerm a q → R a q) (h : IsTerm (.op o args) p) :
    R (.op o args) p := by
  obtain ⟨a, b, q, r, rfl, left, right, result⟩ := pair_eq_ok binary h
  exact cases.pair binary (operands a (by simp) q left) (operands b (by simp) r right) result h

/-- What each way of converting a tree keeps holds of a tree and its polynomial. -/
theorem term (cases : TermCases R) {e : Expr} {p : Poly} (h : IsTerm e p) : R e p := by
  -- the key of `m[key].field` is no part of the root, so the recursion is on the size
  have smaller (c : Expr) (q : Poly) (lt : sizeOf c < sizeOf e) (h : IsTerm c q) : R c q :=
    cases.term h
  have access {x : Attempt Atom} (accesses : Accesses e x) : R e p := by
    obtain ⟨a, access, rfl⟩ := accesses.term_eq_ok h
    exact cases.access (access.imp smaller) h
  cases e with
  | ident x =>
    cases h
    exact cases.name x
  | num digits => exact cases.numeral h
  | neg e =>
    obtain ⟨q, result, h⟩ := Attempt.bind_eq_ok.1 h
    cases h
    exact cases.neg (smaller e q (by simp) result)
  | bool | not => cases h
  | call f args => exact (Accesses.exists_call f args).elim fun _ => access
  | index base key => exact (Accesses.exists_index base key).elim fun _ => access
  | member base field => exact (Accesses.exists_member base field).elim fun _ => access
  | op o args =>
    have operands (a : Expr) (mem : a ∈ args) (q : Poly) : IsTerm a q → R a q :=
      smaller a q (Expr.sizeOf_lt_of_mem_parts (e := .op o args) mem)
    cases o
    case add => exact cases.of_sum (.inl rfl) operands h
    case mul => exact cases.of_sum (.inr rfl) operands h
    case sub | div | mod | pow | bitAnd | bitOr | bitXor => exact cases.of_pair rfl operands h
    all_goals cases h
termination_by sizeOf e
decreasing_by exact lt

end TermCases

theorem formula_relation {o : Operator} (rel : o.isRelational = true) (a b : Expr) :
    formula (.op o [a, b]) =
      if (o = .eq ∨ o = .ne) ∧ (a.isBoolean ∨ b.isBoolean) then do
        let same := agreement (← formula a) (← formula b)
        return if o = .eq then same else .not same
      else do
        let p ← term a
        let q ← term b
        return Constraint.ofComparison o p q := by
  cases o <;> first | rfl | cases rel

/-- An arithmetic operation is no truth value. -/
theorem formula_arithmetic {o : Operator} (rel : o.isRelational = false)
    (logical : o.isLogical = false) (args : List Expr) :
    formula (.op o args) = mismatch (.op o args) .boolean := by
  cases o <;> first | cases rel; done | cases logical; done | skip
  all_goals
    match args with
    | [] | [_] | [_, _] | _ :: _ :: _ :: _ => rfl

/-- A comparison has two operands. -/
theorem relation_eq_ok {o : Operator} (rel : o.isRelational = true) {args : List Expr} {f : Formula}
    (h : IsFormula (.op o args) f) : ∃ a b, args = [a, b] := by
  match args with
  | [a, b] => exact ⟨a, b, rfl⟩
  | [] | [_] | _ :: _ :: _ :: _ => cases o <;> first | cases rel; done | cases h

/-- The ways in which a tree comes to its formula. -/
structure FormulaCases (R : Expr → Formula → Prop) : Prop where
  name : ∀ x : String, R (.ident x) (.prop (.symbol x))
  const : ∀ b : Bool, R (.bool b) (.const b)
  not : ∀ {e : Expr} {f : Formula}, R e f → R (.not e) (.not f)
  access : ∀ {e : Expr} {a : Atom}, Access IsTerm e a → IsFormula e (.prop a) → R e (.prop a)
  and : ∀ {es : List Expr} {fs : List Formula}, List.Forall₂ R es fs → R (.op .and es) (.and fs)
  or : ∀ {es : List Expr} {fs : List Formula}, List.Forall₂ R es fs → R (.op .or es) (.or fs)
  equality : ∀ {o : Operator} {a b : Expr} {f g : Formula}, o = .eq ∨ o = .ne →
    a.isBoolean = true ∨ b.isBoolean = true → R a f → R b g →
      R (.op o [a, b]) (if o = .eq then agreement f g else .not (agreement f g))
  comparison : ∀ {o : Operator} {a b : Expr} {p q : Poly}, o.isRelational = true → IsTerm a p →
    IsTerm b q → R (.op o [a, b]) (Constraint.ofComparison o p q)

namespace FormulaCases

variable {R : Expr → Formula → Prop} {o : Operator} {args : List Expr} {f : Formula}

theorem of_relation (cases : FormulaCases R) (rel : o.isRelational = true)
    (operands : ∀ a ∈ args, ∀ g, IsFormula a g → R a g) (h : IsFormula (.op o args) f) :
    R (.op o args) f := by
  obtain ⟨a, b, rfl⟩ := relation_eq_ok rel h
  rw [IsFormula, formula_relation rel] at h
  split at h
  · next shapes =>
    obtain ⟨g, left, h⟩ := Attempt.bind_eq_ok.1 h
    obtain ⟨g', right, h⟩ := Attempt.bind_eq_ok.1 h
    cases h
    exact cases.equality shapes.1 shapes.2 (operands a (by simp) g left)
      (operands b (by simp) g' right)
  · obtain ⟨p, left, h⟩ := Attempt.bind_eq_ok.1 h
    obtain ⟨q, right, h⟩ := Attempt.bind_eq_ok.1 h
    cases h
    exact cases.comparison rel left right

/-- What each way of converting a tree keeps holds of a tree and its formula. -/
theorem formula (cases : FormulaCases R) {e : Expr} {f : Formula} (h : IsFormula e f) : R e f := by
  induction e using Expr.inductionOnParts generalizing f with
  | node e ih =>
    have access {x : Attempt Atom} (accesses : Accesses e x) : R e f := by
      obtain ⟨a, access, rfl⟩ := accesses.formula_eq_ok h
      exact cases.access access h
    cases e with
    | ident x =>
      cases h
      exact cases.name x
    | bool b =>
      cases h
      exact cases.const b
    | num | neg => cases h
    | not e =>
      obtain ⟨g, result, h⟩ := Attempt.bind_eq_ok.1 h
      cases h
      exact cases.not (ih e (by simp [Expr.parts]) result)
    | call callee args => exact (Accesses.exists_call callee args).elim fun _ => access
    | index base key => exact (Accesses.exists_index base key).elim fun _ => access
    | member base field => exact (Accesses.exists_member base field).elim fun _ => access
    | op o args =>
      have operands (a : Expr) (mem : a ∈ args) (g : Formula) : IsFormula a g → R a g := ih a mem
      have formulas {fs : List Formula} (h : (formulas args).result = .ok fs) :
          List.Forall₂ R args fs := forall₂_of_mem (formulas_eq_ok.1 h) operands
      by_cases rel : o.isRelational = true
      · exact cases.of_relation rel operands h
      · cases o <;> simp [Operator.isRelational] at rel
        case and =>
          obtain ⟨fs, result, h⟩ := Attempt.bind_eq_ok.1 h
          cases h
          exact cases.and (formulas result)
        case or =>
          obtain ⟨fs, result, h⟩ := Attempt.bind_eq_ok.1 h
          cases h
          exact cases.or (formulas result)
        all_goals
          rw [IsFormula, formula_arithmetic rfl rfl] at h
          cases h

end FormulaCases
end Conversion
end PredicateStrength
