import Mathlib
import PredicateStrength.Expr.Parser
import PredicateStrength.Proofs.Expr.Degree
import PredicateStrength.Proofs.Formula.Decoding
import PredicateStrength.Proofs.Formula.Exact
import PredicateStrength.Proofs.Formula.Ordered
import PredicateStrength.Proofs.Poly.Degree

/-!
# Where exponents fit their word

A polynomial has at most the degree that its tree is written with. So no exponent overflows in the
conversion of a tree in which every part has a degree that fits, nor in that of its canonical form.

A single power is multiplied out up to a small exponent only, but powers of powers multiply their
exponents: eleven in one another, each small, exceed the word.

Main statements: `Conversion.not_overflows_of_degree`, and that the degree of a tower of powers is
the product of exponents at which its conversion overflows (`Conversion.overflows_tower_iff`).
-/
namespace PredicateStrength

open PredicateStrength.Expr

namespace Conversion

variable {α β : Type}

namespace Attempt

/-- No exponent overflows, and the result, if there is one, has the property. -/
structure Gives (x : Attempt α) (P : α → Prop) : Prop where
  fits : ¬x.Overflows
  result : ∀ a, x.result = .ok a → P a

namespace Gives

variable {x : Attempt α} {P : α → Prop} {Q : β → Prop}

theorem pure {a : α} (h : P a) : (Pure.pure a : Attempt α).Gives P where
  fits := by rintro ⟨node, ⟨⟩⟩
  result b same := by
    cases same
    exact h

theorem bind {f : α → Attempt β} (first : x.Gives P)
    (rest : ∀ a, x.result = .ok a → P a → (f a).Gives Q) : (x >>= f).Gives Q where
  fits := by
    rintro ⟨node, overflow⟩
    rw [result_bind] at overflow
    cases result : x.result with
    | error cause =>
      rw [result] at overflow
      cases overflow
      exact first.fits ⟨node, result⟩
    | ok a =>
      rw [result] at overflow
      exact (rest a result (first.result a result)).fits ⟨node, overflow⟩
  result b same := by
    obtain ⟨a, result, later⟩ := bind_eq_ok.1 same
    exact (rest a result (first.result a result)).result b later

/-- An attempt that fails for another reason. -/
theorem fail {cause : ConversionError} (other : ∀ node, cause ≠ .exponentOverflow node) :
    (Attempt.fail cause : Attempt α).Gives P where
  fits := by
    rintro ⟨node, same⟩
    exact other node (Except.error.inj same)
  result a same := by cases same

end Gives

end Attempt

open Attempt

theorem gives_mismatch {P : α → Prop} (e : Expr) (s : ValueSort) :
    (mismatch e s : Attempt α).Gives P := .fail (by simp)

theorem gives_wrongOperandCount {P : α → Prop} (e : Expr) :
    (wrongOperandCount e : Attempt α).Gives P := .fail (by simp)

theorem gives_verbatim (e : Expr) (reason : String) :
    (verbatim e reason).Gives fun _ => True where
  fits := by rintro ⟨node, ⟨⟩⟩
  result _ _ := trivial

/-- An atom has degree one. -/
theorem gives_ofAtom {x : Attempt Atom} {d : Nat} (h : x.Gives fun _ => True) (one : 1 ≤ d) :
    (do return .ofAtom (← x) : Attempt Poly).Gives (·.DegreeLE d) :=
  h.bind fun a _ _ => .pure ((Poly.degreeLE_ofAtom a).mono one)

theorem gives_orOverflow {e : Expr} {x : Option α} {a : α} {P : α → Prop} (found : x = some a)
    (h : P a) : (orOverflow e x).Gives P := by
  rw [found]
  exact .pure h

section Operations

variable {e : Expr} {p q : Poly} {o : Operator} {c d : Nat} {es : List Nat}

theorem gives_numeral (digits : String) :
    (numeral (.num digits) digits).Gives (·.DegreeLE (Expr.num digits).degree) := by
  rw [numeral, Expr.degree]
  split
  · next value =>
    rw [value]
    exact .pure (Poly.degreeLE_const _ _)
  · next none =>
    rw [none]
    exact gives_ofAtom (gives_verbatim _ _) le_rfl

theorem gives_divide (hp : p.DegreeLE c) : (divide e p q).Gives (·.DegreeLE (max 1 c)) := by
  have kept : ∀ a, (Poly.ofAtom a).DegreeLE (max 1 c) := fun a =>
    (Poly.degreeLE_ofAtom a).mono (le_max_left 1 c)
  unfold divide
  split
  · exact .pure (kept _)
  · split
    · exact gives_ofAtom (gives_verbatim _ _) (le_max_left 1 c)
    · split
      · split <;> exact .pure (Poly.degreeLE_const _ _)
      · split
        · exact .pure ((hp.scale _).mono (le_max_right 1 c))
        · exact .pure (kept _)

theorem gives_remainder : (remainder e p q).Gives (·.DegreeLE 1) := by
  unfold remainder
  split
  · split
    · exact gives_ofAtom (gives_verbatim _ _) le_rfl
    · split
      · exact .pure (Poly.degreeLE_const _ _)
      · split
        · exact .pure (Poly.degreeLE_zero _)
        · exact .pure (Poly.degreeLE_ofAtom _)
  · exact .pure (Poly.degreeLE_ofAtom _)

/-- The power of a constant is a constant, whatever the exponent is. -/
theorem gives_power {k : Nat} (hp : p.DegreeLE c)
    (exponent : ∀ n : Nat, n ≤ maxSymbolicExponent → q.integer? = some (n : Int) → n ≤ k)
    (low : c * k < Monomial.exponentLimit) :
    (power e p q).Gives (·.DegreeLE (max 1 (c * k))) := by
  have kept : ∀ reason, (do return .ofAtom (← verbatim e reason) : Attempt Poly).Gives
      (·.DegreeLE (max 1 (c * k))) := fun reason =>
    gives_ofAtom (gives_verbatim e reason) (le_max_left 1 _)
  have positive : 0 < Monomial.exponentLimit := (Nat.zero_le _).trans_lt low
  unfold power
  generalize limit : (if p.constant?.isSome then maxConstantExponent else maxSymbolicExponent) = l
  cases integer : q.integer? with
  | none => exact kept _
  | some n =>
    dsimp only
    split
    · next small =>
      obtain ⟨n, rfl⟩ := Int.eq_ofNat_of_zero_le small.1
      rw [Int.toNat_natCast]
      cases constant : p.constant? with
      | some _ =>
        have plain := Poly.degreeLE_of_constant? constant
        refine gives_orOverflow (Poly.pow?_of_degree plain (by rwa [Nat.zero_mul])) ?_
        exact (plain.pow n).mono (by rw [Nat.zero_mul]; exact Nat.zero_le _)
      | none =>
        have limited : n ≤ maxSymbolicExponent := by
          rw [constant] at limit
          exact (Int.ofNat_le.1 small.2).trans limit.ge
        have le : c * n ≤ c * k := Nat.mul_le_mul_left c (exponent n limited integer)
        refine gives_orOverflow (Poly.pow?_of_degree hp (le.trans_lt low)) ?_
        exact (hp.pow n).mono (le.trans (le_max_right 1 _))
    · exact kept _

theorem gives_bitwise : (bitwise e o p q).Gives (·.DegreeLE 1) := by
  unfold bitwise
  split
  · split
    · exact .pure (Poly.degreeLE_const _ _)
    · exact gives_ofAtom (gives_verbatim _ _) le_rfl
  · exact gives_ofAtom (gives_verbatim _ _) le_rfl

/-- An operation does not overflow where its degree fits. -/
theorem gives_arithmetic (hp : p.DegreeLE c) (hq : q.DegreeLE d)
    (exponent : o = .pow →
      ∀ n : Nat, n ≤ maxSymbolicExponent → q.integer? = some (n : Int) → n ≤ es.getD 1 0)
    (low : o.degreeOf [c, d] es < Monomial.exponentLimit) :
    (arithmetic e o p q).Gives (·.DegreeLE (o.degreeOf [c, d] es)) := by
  have left : c ≤ highest [c, d] := highest_le.1 le_rfl c List.mem_cons_self
  have right : d ≤ highest [c, d] := highest_le.1 le_rfl d (by simp)
  cases o
  case add => exact .pure ((hp.mono left).add (hq.mono right))
  case sub => exact .pure ((hp.mono left).sub (hq.mono right))
  case mul =>
    have sum : Operator.mul.degreeOf [c, d] es = c + d := by simp [Operator.degreeOf]
    rw [sum] at low ⊢
    exact gives_orOverflow (Poly.mul?_of_degree hp hq low) (hp.mul hq)
  case div => exact gives_divide hp
  case mod => exact gives_remainder
  case pow => exact gives_power hp (exponent rfl) ((le_max_right 1 _).trans_lt low)
  case bitAnd | bitOr | bitXor => exact gives_bitwise
  all_goals exact gives_mismatch _ _

/-- What a tree is as an exponent is within its bound. -/
theorem le_exponentBound {b : Expr} {n : Nat} (h : (term b).result = .ok q)
    (small : n ≤ maxSymbolicExponent) (integer : q.integer? = some (n : Int)) :
    n ≤ b.exponentBound := by
  cases b with
  | num digits =>
    rw [term, numeral] at h
    rw [exponentBound]
    cases value : Numeral.value? digits with
    | none =>
      rw [value] at h
      cases h
      cases integer
    | some x =>
      rw [value] at h
      cases h
      have same : x = (n : Int) := by
        rw [← Poly.value_of_integer? (fun _ => 0) integer, Poly.value_const]
      subst same
      simp [small]
  | _ => exact small

/-- Two operands of a sum or product may be joined first. -/
theorem degreeOf_fuse (sum : o = .add ∨ o = .mul) (c d : Nat) (ds es : List Nat) :
    o.degreeOf (o.degreeOf [c, d] es :: ds) es = o.degreeOf (c :: d :: ds) es := by
  rcases sum with rfl | rfl
  · simp [Operator.degreeOf, highest, max_assoc]
  · simp [Operator.degreeOf, add_assoc]

theorem degreeOf_single (sum : o = .add ∨ o = .mul) (d : Nat) (es : List Nat) :
    o.degreeOf [d] es = d := by
  rcases sum with rfl | rfl <;> simp [Operator.degreeOf, highest]

/-- The first operands of a sum or product have no higher degree than all of them. -/
theorem degreeOf_le_fuse (sum : o = .add ∨ o = .mul) (c : Nat) (ds es : List Nat) :
    c ≤ o.degreeOf (c :: ds) es := by
  rcases sum with rfl | rfl
  · exact highest_le.1 le_rfl c List.mem_cons_self
  · simp [Operator.degreeOf]

theorem gives_argument {arg : Expr} {x : Attempt Poly} {P : Poly → Prop} (h : x.Gives P) :
    (argument e arg x).Gives fun _ => True where
  fits := by
    rintro ⟨node, overflow⟩
    unfold argument at overflow
    split at overflow
    · cases overflow
    · split at overflow
      · cases overflow
      · next node' found => exact h.fits ⟨node', found⟩
      · cases overflow
  result _ _ := trivial

theorem gives_application {head : Head} {args : Attempt (Option (List Poly))}
    (h : args.Gives fun _ => True) : (application e head args).Gives fun _ => True := by
  refine h.bind fun ps _ _ => ?_
  cases ps <;> exact .pure trivial

/-- The read of a map at a key. -/
theorem gives_read {head : Head} {key : Expr} {x : Attempt Poly} {P : Poly → Prop}
    (h : x.Gives P) : (application e head (single (argument e key x))).Gives fun _ => True :=
  gives_application ((gives_argument h).bind fun _ _ _ => .pure trivial)

end Operations

/-- The degree of every part fits the word of an exponent. -/
def LowDegrees (e : Expr) : Prop := Everywhere (·.degree < Monomial.exponentLimit) e

mutual
/-- A tree of parts whose degrees fit converts to a polynomial of its degree. -/
theorem gives_term : ∀ {e : Expr}, LowDegrees e → (term e).Gives (·.DegreeLE e.degree)
  | .ident name, _ => .pure (Poly.degreeLE_ofAtom _)
  | .num digits, _ => gives_numeral digits
  | .neg e, low => (gives_term (low.part List.mem_cons_self)).bind fun p _ hp => .pure hp.neg
  | .bool b, _ => gives_mismatch _ _
  | .not e, _ => gives_mismatch _ _
  | .call callee args, low => by
    cases callee with
    | ident f =>
      exact gives_ofAtom (gives_application
        (gives_arguments fun a mem => low.part (List.mem_cons_of_mem _ mem))) le_rfl
    | _ => exact gives_ofAtom (gives_verbatim _ _) le_rfl
  | .index base key, low => by
    cases base with
    | ident m =>
      exact gives_ofAtom (gives_read (gives_term
        (low.part (List.mem_cons_of_mem _ List.mem_cons_self)))) le_rfl
    | _ => exact gives_ofAtom (gives_verbatim _ _) le_rfl
  | .member base field, low => by
    cases base with
    | index base' key =>
      cases base' with
      | ident m =>
        have read : LowDegrees (.index (.ident m) key) := low.part List.mem_cons_self
        exact gives_ofAtom (gives_read (gives_term
          (read.part (List.mem_cons_of_mem _ List.mem_cons_self)))) le_rfl
      | _ => exact gives_ofAtom (gives_verbatim _ _) le_rfl
    | _ => exact gives_ofAtom (gives_verbatim _ _) le_rfl
  | .op o args, low => by
    have root := low.root
    rw [degree_op] at root ⊢
    cases o
    case add => exact gives_joined (.inl rfl) (fun a mem => low.part mem) root
    case mul => exact gives_joined (.inr rfl) (fun a mem => low.part mem) root
    case sub | div | mod | pow | bitAnd | bitOr | bitXor =>
      match args, low, root with
      | [a, b], low, root =>
        exact (gives_term (low.part List.mem_cons_self)).bind fun p _ hp =>
          (gives_term (low.part (List.mem_cons_of_mem a List.mem_cons_self))).bind fun q hb hq =>
            gives_arithmetic hp hq (fun _ n small integer => le_exponentBound hb small integer) root
      | [], _, _ | [_], _, _ | _ :: _ :: _ :: _, _, _ => exact gives_wrongOperandCount _
    all_goals exact gives_mismatch _ _

theorem gives_joined {e : Expr} {o : Operator} (sum : o = .add ∨ o = .mul) {es : List Nat} :
    ∀ {as : List Expr}, (∀ a ∈ as, LowDegrees a) →
      o.degreeOf (as.map degree) es < Monomial.exponentLimit →
        (joined e o as).Gives (·.DegreeLE (o.degreeOf (as.map degree) es))
  | [], _, _ => .pure (Poly.degreeLE_zero _)
  | a :: as, parts, low => by
    obtain ⟨first, rest⟩ := List.forall_mem_cons.1 parts
    exact (gives_term first).bind fun p _ hp => gives_joinedTo sum hp rest low

theorem gives_joinedTo {e : Expr} {o : Operator} (sum : o = .add ∨ o = .mul) {es : List Nat} :
    ∀ {as : List Expr} {p : Poly} {d : Nat}, p.DegreeLE d → (∀ a ∈ as, LowDegrees a) →
      o.degreeOf (d :: as.map degree) es < Monomial.exponentLimit →
        (joinedTo e o p as).Gives (·.DegreeLE (o.degreeOf (d :: as.map degree) es))
  | [], p, d, hp, _, _ => .pure (hp.mono (degreeOf_single sum d es).ge)
  | a :: as, p, d, hp, parts, low => by
    obtain ⟨first, rest⟩ := List.forall_mem_cons.1 parts
    have fused := degreeOf_fuse sum d a.degree (as.map degree) es
    rw [List.map_cons, ← fused] at low ⊢
    have step := (degreeOf_le_fuse sum _ _ _).trans_lt low
    have base : o ≠ .pow := by rcases sum with rfl | rfl <;> decide
    exact (gives_term first).bind fun q _ hq =>
      (gives_arithmetic hp hq (fun pow => absurd pow base) step).bind fun r _ hr =>
        gives_joinedTo sum hr rest low

theorem gives_arguments {e : Expr} : ∀ {as : List Expr}, (∀ a ∈ as, LowDegrees a) →
    (arguments e as).Gives fun _ => True
  | [], _ => .pure trivial
  | a :: as, parts => by
    obtain ⟨first, rest⟩ := List.forall_mem_cons.1 parts
    rw [arguments]
    refine (gives_argument (gives_term first)).bind fun p _ _ => ?_
    cases p with
    | none => exact .pure trivial
    | some p => exact (gives_arguments rest).bind fun _ _ _ => .pure trivial
end

theorem gives_access {e : Expr} (access : ∃ x, Accesses e x) (low : LowDegrees e) :
    (formula e).Gives fun _ => True where
  fits := by
    obtain ⟨x, access⟩ := access
    rintro ⟨node, overflow⟩
    exact (gives_term low).fits ⟨node, access.formula_eq_error_iff.1 overflow⟩
  result _ _ := trivial

mutual
/-- A tree of parts whose degrees fit converts to a formula without overflow. -/
theorem gives_formula : ∀ {e : Expr}, LowDegrees e → (formula e).Gives fun _ => True
  | .ident _, _ => .pure trivial
  | .bool _, _ => .pure trivial
  | .num _, _ => gives_mismatch _ _
  | .neg _, _ => gives_mismatch _ _
  | .not e, low => (gives_formula (low.part List.mem_cons_self)).bind fun _ _ _ => .pure trivial
  | .call callee args, low => gives_access (Accesses.exists_call callee args) low
  | .index base key, low => gives_access (Accesses.exists_index base key) low
  | .member base field, low => gives_access (Accesses.exists_member base field) low
  | .op o args, low => by
    by_cases rel : o.isRelational = true
    · match args, low with
      | [a, b], low =>
        have left : LowDegrees a := low.part List.mem_cons_self
        have right : LowDegrees b := low.part (List.mem_cons_of_mem a List.mem_cons_self)
        rw [formula_relation rel]
        split
        · exact (gives_formula left).bind fun _ _ _ =>
            (gives_formula right).bind fun _ _ _ => .pure trivial
        · exact (gives_term left).bind fun _ _ _ =>
            (gives_term right).bind fun _ _ _ => .pure trivial
      | [], _ | [_], _ | _ :: _ :: _ :: _, _ =>
        cases o <;> first | exact gives_wrongOperandCount _ | cases rel
    · cases o
      case and | or =>
        exact (gives_formulas fun a mem => low.part mem).bind fun _ _ _ => .pure trivial
      case add | sub | mul | div | mod | pow | bitAnd | bitOr | bitXor =>
        rw [formula_arithmetic rfl rfl]
        exact gives_mismatch _ _
      all_goals exact absurd rfl rel

theorem gives_formulas : ∀ {es : List Expr}, (∀ e ∈ es, LowDegrees e) →
    (formulas es).Gives fun _ => True
  | [], _ => .pure trivial
  | e :: es, parts => by
    obtain ⟨first, rest⟩ := List.forall_mem_cons.1 parts
    exact (gives_formula first).bind fun _ _ _ =>
      (gives_formulas rest).bind fun _ _ _ => .pure trivial
end

/-- The degrees of the canonical form fit where those of the tree do. -/
theorem LowDegrees.canonical {e : Expr} (low : LowDegrees e) : LowDegrees e.canonical :=
  ((lowers_canonical e).everywhere (Monomial.exponentLimit - 1) (by decide)
    (low.mono fun _ below => Nat.le_sub_one_of_lt below)).mono
      fun _ le => Nat.lt_of_le_sub_one (by decide) le

/-- A name raised to each of the exponents in turn, the last one first. -/
def tower (x : String) : List Nat → Expr
  | [] => .ident x
  | n :: ns => .binary .pow (tower x ns) (.num (toString n))

section Towers

variable {x : String} {ns : List Nat}

theorem exponentBound_numeral {n : Nat} (small : n ≤ maxSymbolicExponent) :
    (Expr.num (toString n)).exponentBound = n := by
  have value := Numeral.value?_of_isDigits (Numeral.isDigits_toString n)
  rw [Numeral.amount_toString] at value
  rw [exponentBound, value]
  simp [small]

theorem degree_tower (small : ∀ n ∈ ns, 1 ≤ n ∧ n ≤ maxSymbolicExponent) :
    (tower x ns).degree = ns.prod := by
  induction ns with
  | nil => rfl
  | cons n ns ih =>
    obtain ⟨⟨one, le⟩, rest⟩ := List.forall_mem_cons.1 small
    have positive : 1 ≤ n * ns.prod :=
      Nat.mul_pos one (List.prod_pos fun n mem => (rest n mem).1)
    have root : (tower x (n :: ns)).degree = max 1 (ns.prod * n) := by
      rw [tower, Expr.binary, degree_op, ← ih rest]
      exact congrArg (fun m => max 1 (_ * m)) (exponentBound_numeral le)
    rw [root, List.prod_cons, Nat.mul_comm, max_eq_right positive]

theorem lowDegrees_tower (small : ∀ n ∈ ns, 1 ≤ n ∧ n ≤ maxSymbolicExponent)
    (low : ns.prod < Monomial.exponentLimit) : LowDegrees (tower x ns) := by
  induction ns with
  | nil => exact .node low (by simp [tower, parts])
  | cons n ns ih =>
    obtain ⟨⟨one, le⟩, rest⟩ := List.forall_mem_cons.1 small
    have fewer : ns.prod ≤ (n :: ns).prod := by
      rw [List.prod_cons]
      exact Nat.le_mul_of_pos_left _ one
    have numeral : LowDegrees (.num (toString n)) := .node
      ((show (Expr.num (toString n)).degree ≤ 1 by rw [Expr.degree]; split <;> decide).trans_lt
        (by decide)) (by simp [parts])
    exact .pair ((degree_tower small).trans_lt low) (ih rest (fewer.trans_lt low)) numeral

/-- A name to the power `k`. -/
def monomialPower (x : String) (k : Nat) : Poly := .ofTerm ⟨[⟨.symbol x, k⟩]⟩ 1

theorem mul?_monomialPower (j k : Nat) : (monomialPower x j).mul? (monomialPower x k) =
    if j + k < Monomial.exponentLimit then some (monomialPower x (j + k)) else none := by
  have fits : (⟨[⟨.symbol x, j⟩]⟩ : Monomial).mulFits ⟨[⟨.symbol x, k⟩]⟩ =
      decide (j + k < Monomial.exponentLimit) := by
    simp [Monomial.mulFits, Monomial.exponent]
  have product : (⟨[⟨.symbol x, j⟩]⟩ : Monomial) * ⟨[⟨.symbol x, k⟩]⟩ = ⟨[⟨.symbol x, j + k⟩]⟩ := by
    show Monomial.mk (Monomial.mulFactor _ k [⟨_, j⟩]) = _
    rw [Monomial.mulFactor, (Atom.cmp_eq_iff _ _).2 rfl]
  split
  · next low =>
    rw [monomialPower, monomialPower,
      Poly.mul?_ofTerm (by rw [fits]; exact decide_eq_true low) one_ne_zero one_ne_zero, product,
      mul_one, monomialPower]
  · next high =>
    rw [Poly.mul?_eq_none]
    simp [Poly.mulFits, monomialPower, Poly.ofTerm, fits, high]

theorem pow?_monomialPower {k : Nat} (positive : 1 ≤ k) (low : k < Monomial.exponentLimit)
    (n : Nat) : (monomialPower x k).pow? (n + 1) =
      if k * (n + 1) < Monomial.exponentLimit then some (monomialPower x (k * (n + 1)))
      else none := by
  induction n with
  | zero =>
    have front : Monomial.Ordered ⟨[] ++ [⟨.symbol x, k⟩]⟩ :=
      ⟨by simp [Monomial.atoms, Sorting.StrictlyAscending], List.forall_mem_singleton.2 positive⟩
    rw [zero_add, mul_one, if_pos low]
    exact Poly.mul?_last front low one_ne_zero
  | succ n ih =>
    rw [Poly.pow?, ih]
    have step : k * (n + 1 + 1) = k * (n + 1) + k := Nat.mul_succ k (n + 1)
    rw [step]
    split
    · rw [Option.bind_some, mul?_monomialPower]
    · next high => rw [Option.bind_none, if_neg (by omega)]

/-- The power of a power is multiplied out up to the limit of a single power. -/
theorem power_monomialPower {e : Expr} {k n : Nat} (positive : 1 ≤ k)
    (low : k < Monomial.exponentLimit) (one : 1 ≤ n) (le : n ≤ maxSymbolicExponent) :
    power e (monomialPower x k) (.const n) = orOverflow e
      (if k * n < Monomial.exponentLimit then some (monomialPower x (k * n)) else none) := by
  have integer : (Poly.const (n : Rat)).integer? = some (n : Int) := Poly.integer?_const n
  have atoms : (monomialPower x k).constant? = none := rfl
  have within : 0 ≤ (n : Int) ∧ (n : Int) ≤ (maxSymbolicExponent : Nat) :=
    ⟨Int.natCast_nonneg n, Int.ofNat_le.2 le⟩
  obtain ⟨m, rfl⟩ := Nat.exists_eq_add_of_le' one
  rw [power, integer, atoms, ← pow?_monomialPower positive low]
  exact if_pos within

/-- A tower converts to a power with the product of the exponents where that fits, and overflows
where it does not. -/
theorem toPoly_tower (small : ∀ n ∈ ns, 1 ≤ n ∧ n ≤ maxSymbolicExponent) :
    (ns.prod < Monomial.exponentLimit →
        (tower x ns).toPoly.result = .ok (monomialPower x ns.prod)) ∧
      (Monomial.exponentLimit ≤ ns.prod → (tower x ns).toPoly.Overflows) := by
  induction ns with
  | nil => exact ⟨fun _ => rfl, fun high => absurd high (by decide)⟩
  | cons n ns ih =>
    obtain ⟨⟨one, le⟩, rest⟩ := List.forall_mem_cons.1 small
    obtain ⟨converts, overflows⟩ := ih rest
    have exponent : (Expr.num (toString n)).toPoly.result = .ok (.const n) := convertsTo_numeral n
    have result : (tower x (n :: ns)).toPoly.result = (tower x ns).toPoly.result.bind fun p =>
        (power (tower x (n :: ns)) p (.const n)).result := by
      show ((tower x ns).toPoly >>= fun p => (Expr.num (toString n)).toPoly >>= fun q =>
        power (tower x (n :: ns)) p q).result = _
      simp only [result_bind, exponent]
      rfl
    rw [Overflows, result, List.prod_cons, Nat.mul_comm]
    by_cases low : ns.prod < Monomial.exponentLimit
    · have positive : 1 ≤ ns.prod := List.prod_pos fun n mem => (rest n mem).1
      have step := power_monomialPower (x := x) (e := tower x (n :: ns)) positive low one le
      rw [converts low]
      refine ⟨fun fits => ?_, fun high => ⟨(tower x (n :: ns)).text, ?_⟩⟩
      · show (power _ _ _).result = _
        rw [step, if_pos fits]
        rfl
      · show (power _ _ _).result = _
        rw [step, if_neg (by omega)]
        rfl
    · have more : Monomial.exponentLimit ≤ ns.prod * n :=
        (Nat.le_of_not_lt low).trans (Nat.le_mul_of_pos_right _ one)
      obtain ⟨node, overflow⟩ := overflows (Nat.le_of_not_lt low)
      rw [overflow]
      exact ⟨fun fits => absurd more (Nat.not_le_of_lt fits), fun _ => ⟨node, rfl⟩⟩

/-- No bound above the degree would do: a tower overflows where its degree does not fit. -/
theorem overflows_tower_iff (small : ∀ n ∈ ns, 1 ≤ n ∧ n ≤ maxSymbolicExponent) :
    (tower x ns).toPoly.Overflows ↔ Monomial.exponentLimit ≤ (tower x ns).degree := by
  obtain ⟨converts, overflows⟩ := toPoly_tower (x := x) small
  rw [degree_tower small]
  refine ⟨fun ⟨node, overflow⟩ => Nat.le_of_not_lt fun low => ?_, overflows⟩
  cases overflow.symm.trans (converts low)

end Towers

/-- No exponent overflows in the conversion of a tree all of whose parts have degrees that fit, nor
in that of its canonical form. -/
theorem not_overflows_of_degree {e t : Expr}
    (low : Everywhere (·.degree < Monomial.exponentLimit) e) (tree : t = e ∨ t = e.canonical) :
    ¬t.toSymbolic.Overflows ∧ ¬t.toFormula.Overflows := by
  have low : LowDegrees t := by
    rcases tree with rfl | rfl
    · exact low
    · exact LowDegrees.canonical low
  refine ⟨?_, (gives_formula low).fits⟩
  have symbolic : t.toSymbolic.Gives fun _ => True := by
    unfold toSymbolic
    split
    · exact (gives_term low).bind fun _ _ _ => .pure trivial
    · exact (gives_formula low).bind fun _ _ _ => .pure trivial
  exact symbolic.fits

theorem not_overflows_of_degree_tower :
    let e := Expr.binary .eq (tower "x" [3, 8, 8, 8, 8, 8, 8, 8, 8, 8, 8]) (.num "1")
    ¬e.toFormula.Overflows ∧ ¬e.canonical.toFormula.Overflows := by
  intro e
  have numeral : Everywhere (·.degree < Monomial.exponentLimit) (.num "1") :=
    .node (by decide) (by simp [parts])
  have low : Everywhere (·.degree < Monomial.exponentLimit) e :=
    .pair (by decide) (lowDegrees_tower (by decide) (by decide)) numeral
  exact ⟨(not_overflows_of_degree low (.inl rfl)).2, (not_overflows_of_degree low (.inr rfl)).2⟩

/-- Each of the eleven exponents is within the limit of a single power; their product is `2 ^ 32`. -/
theorem exists_overflows :
    ∃ e : Expr, Expr.ofText
        "((((((((((x ** 8) ** 8) ** 8) ** 8) ** 8) ** 8) ** 8) ** 8) ** 8) ** 8) ** 4 == 1" = .ok e ∧
      e.toFormula.Overflows := by
  have small : ∀ n ∈ [4, 8, 8, 8, 8, 8, 8, 8, 8, 8, 8], 1 ≤ n ∧ n ≤ maxSymbolicExponent := by decide
  obtain ⟨node, overflow⟩ := (overflows_tower_iff (x := "x") small).2 (by decide)
  refine ⟨.binary .eq (tower "x" [4, 8, 8, 8, 8, 8, 8, 8, 8, 8, 8]) (.num "1"), by cbv, node, ?_⟩
  show (formula (.op .eq [tower "x" _, _])).result = _
  rw [formula_relation rfl, if_neg (by decide), result_bind]
  exact congrArg (Except.bind · _) overflow

end Conversion
end PredicateStrength
