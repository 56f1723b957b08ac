import PredicateStrength.Error
import PredicateStrength.Formula.Constraint
import PredicateStrength.Formula.ToExpr

/-!
From trees to formulas and polynomials. A part without symbolic meaning is kept as it stands, as
an atom, and reported as an issue; a part of the wrong sort is an error.

Arithmetic on constants is carried out: quotients and remainders of integers round toward zero,
powers are multiplied out up to a limit.
-/
namespace PredicateStrength

namespace Conversion

/-- Powers of polynomials with atoms are multiplied out up to this exponent. -/
def maxSymbolicExponent : Nat := 8

/-- Powers of constants are computed up to this exponent; `2**256` fits. -/
def maxConstantExponent : Nat := 1024

/-- An outcome, and the parts that were kept as they stand on the way to it. -/
structure Attempt (α : Type) where
  result : Except ConversionError α
  issues : List ConversionError := []

namespace Attempt

instance : Monad Attempt where
  pure a := ⟨.ok a, []⟩
  bind x f :=
    match x.result with
    | .ok a => ⟨(f a).result, x.issues ++ (f a).issues⟩
    | .error e => ⟨.error e, x.issues⟩

variable {α β : Type}

@[simp] theorem result_pure (a : α) : (pure a : Attempt α).result = .ok a := rfl

@[simp] theorem result_bind (x : Attempt α) (f : α → Attempt β) :
    (x >>= f).result = x.result.bind fun a => (f a).result := by
  show Attempt.result (match x.result with
    | .ok a => ⟨(f a).result, x.issues ++ (f a).issues⟩
    | .error e => ⟨.error e, x.issues⟩) = _
  cases x.result <;> rfl

def fail (e : ConversionError) : Attempt α := ⟨.error e, []⟩

end Attempt

open Attempt (fail)

/-- The tree kept as it stands, for the given reason. -/
def verbatim (e : Expr) (reason : String) : Attempt Atom :=
  ⟨.ok (.verbatim e), [.unsupported e.text reason]⟩

/-- The node cannot stand where a value of the given sort is expected. -/
def mismatch {α : Type} (e : Expr) (expected : ValueSort) : Attempt α :=
  fail (.sortMismatch e.text expected)

/-- The node has a number of operands for which it has no meaning. -/
def wrongOperandCount {α : Type} (e : Expr) : Attempt α :=
  fail (.unsupported e.text "relation without exactly two operands")

/-- The outcome, unless an exponent in `e` does not fit its word. -/
def orOverflow {α : Type} (e : Expr) : Option α → Attempt α
  | some a => pure a
  | none => fail (.exponentOverflow e.text)

/-- The value of a numeral. -/
def numeral (e : Expr) (digits : String) : Attempt Poly :=
  match Numeral.value? digits with
  | some q => pure (.const q)
  | none => return .ofAtom (← verbatim e "unreadable literal")

/-- The quotient `p / q`, which is what `e` stands for. Integers divide rounded toward zero, other
constants exactly; a polynomial whose coefficients are multiples of the divisor is divided term
by term. -/
def divide (e : Expr) (p q : Poly) : Attempt Poly :=
  match q.constant? with
  | none => pure (.ofAtom (.quot p q))
  | some d =>
    if d = 0 then return .ofAtom (← verbatim e "division by zero")
    else
      match p.constant? with
      | some n =>
        if n.den = 1 ∧ d.den = 1 then pure (.const (n.num.tdiv d.num)) else pure (.const (n / d))
      | none =>
        if d.den = 1 ∧ p.divisibleBy d.num then pure (p.scale d⁻¹)
        else pure (.ofAtom (.quot p q))

/-- The remainder of `p / q`, which is what `e` stands for. -/
def remainder (e : Expr) (p q : Poly) : Attempt Poly :=
  match p.integer?, q.integer? with
  | n, some d =>
    if d = 0 then return .ofAtom (← verbatim e "modulo by zero")
    else
      match n with
      | some n => pure (.const (n.tmod d))
      | none => if d = 1 then pure .zero else pure (.ofAtom (.rem p q))
  | _, none => pure (.ofAtom (.rem p q))

/-- The power `p ** q`, which is what `e` stands for. -/
def power (e : Expr) (p q : Poly) : Attempt Poly :=
  let limit := if p.constant?.isSome then maxConstantExponent else maxSymbolicExponent
  match q.integer? with
  | some n =>
    if 0 ≤ n ∧ n ≤ limit then orOverflow e (p.pow? n.toNat)
    else return .ofAtom (← verbatim e "non-constant or oversized exponent")
  | none => return .ofAtom (← verbatim e "non-constant or oversized exponent")

/-- The bitwise operation on two numbers. -/
def bitOperation (o : Operator) (m n : Nat) : Nat :=
  match o with
  | .bitAnd => m &&& n
  | .bitOr => m ||| n
  | _ => m ^^^ n

/-- A bitwise operation, which is what `e` stands for; computed on integers from zero on. -/
def bitwise (e : Expr) (o : Operator) (p q : Poly) : Attempt Poly :=
  match p.integer?, q.integer? with
  | some m, some n =>
    if 0 ≤ m ∧ 0 ≤ n then pure (.const (bitOperation o m.toNat n.toNat))
    else return .ofAtom (← verbatim e "bitwise operator")
  | _, _ => return .ofAtom (← verbatim e "bitwise operator")

/-- The number that an arithmetic operator makes of two numbers, which is what `e` stands for. -/
def arithmetic (e : Expr) (o : Operator) (p q : Poly) : Attempt Poly :=
  match o with
  | .add => pure (p + q)
  | .sub => pure (p - q)
  | .mul => orOverflow e (p.mul? q)
  | .div => divide e p q
  | .mod => remainder e p q
  | .pow => power e p q
  | .bitAnd | .bitOr | .bitXor => bitwise e o p q
  | _ => mismatch e .integer

/-- The outcome for an argument of the application `e`. A truth value as an argument, or an
argument that has no polynomial, leaves the whole application as it stands. -/
def argument (e arg : Expr) (p : Attempt Poly) : Attempt (Option Poly) :=
  if arg.isBoolean then ⟨.ok none, [.unsupported e.text "boolean argument"]⟩
  else
    match p.result with
    | .ok p' => ⟨.ok (some p'), p.issues⟩
    | .error (.exponentOverflow node) => ⟨.error (.exponentOverflow node), p.issues⟩
    | .error cause => ⟨.ok none, p.issues ++ [cause]⟩

/-- The application `e` of a head to arguments, as far as they have polynomials. -/
def application (e : Expr) (head : Head) (args : Attempt (Option (List Poly))) : Attempt Atom := do
  match ← args with
  | some ps => return .app head ps
  | none => return .verbatim e

/-- The outcome for a single argument. -/
def single (p : Attempt (Option Poly)) : Attempt (Option (List Poly)) := do
  return (← p).map ([·])

/-- Two truth values agree. -/
def agreement (f g : Formula) : Formula := .or [.and [f, g], .and [.not f, .not g]]

mutual
/-- The polynomial of a tree. -/
def term : Expr → Attempt Poly
  | .ident name => pure (.symbol name)
  | .num digits => numeral (.num digits) digits
  | .neg e => do return -(← term e)
  | .bool b => mismatch (.bool b) .integer
  | .not e => mismatch (.not e) .integer
  | .call (.ident f) args => do
    let e := .call (.ident f) args
    return .ofAtom (← application e (.function f) (arguments e args))
  | .call callee args => do
    return .ofAtom (← verbatim (.call callee args) "call through an expression")
  | .index (.ident m) key => do
    let e := .index (.ident m) key
    return .ofAtom (← application e (.index m) (single (argument e key (term key))))
  | .index base key => do return .ofAtom (← verbatim (.index base key) "nested index")
  | .member (.index (.ident m) key) field => do
    let e := .member (.index (.ident m) key) field
    return .ofAtom (← application e (.indexField m field) (single (argument e key (term key))))
  | .member (.index base key) field => do
    return .ofAtom (← verbatim (.member (.index base key) field) "nested index")
  | .member base field => do
    return .ofAtom (← verbatim (.member base field) "member of a computed value")
  | .op o args =>
    let e := .op o args
    match o with
    | .add | .mul => joined e o args
    | .sub | .div | .mod | .pow | .bitAnd | .bitOr | .bitXor =>
      match args with
      | [a, b] => do
        let p ← term a
        let q ← term b
        arithmetic e o p q
      | _ => wrongOperandCount e
    | _ => mismatch e .integer

/-- The operands of a sum or product `e`, which may be any number. -/
def joined (e : Expr) (o : Operator) : List Expr → Attempt Poly
  | [] => pure .zero
  | a :: as => do joinedTo e o (← term a) as

/-- The operands of a sum or product `e` behind those that make `p`. -/
def joinedTo (e : Expr) (o : Operator) (p : Poly) : List Expr → Attempt Poly
  | [] => pure p
  | a :: as => do
    let q ← term a
    joinedTo e o (← arithmetic e o p q) as

/-- The arguments of the application `e`, up to the first that leaves it as it stands. -/
def arguments (e : Expr) : List Expr → Attempt (Option (List Poly))
  | [] => pure (some [])
  | a :: as => do
    match ← argument e a (term a) with
    | none => return none
    | some p => return (← arguments e as).map (p :: ·)
end

mutual
/-- The formula of a tree. -/
def formula : Expr → Attempt Formula
  | .bool b => pure (.const b)
  | .not e => do return .not (← formula e)
  | .ident name => pure (.prop (.symbol name))
  | .call (.ident f) args => do
    let e := .call (.ident f) args
    return .prop (← application e (.function f) (arguments e args))
  | .call callee args => do
    return .prop (← verbatim (.call callee args) "call through an expression")
  | .index (.ident m) key => do
    let e := .index (.ident m) key
    return .prop (← application e (.index m) (single (argument e key (term key))))
  | .index base key => do return .prop (← verbatim (.index base key) "nested index")
  | .member (.index (.ident m) key) field => do
    let e := .member (.index (.ident m) key) field
    return .prop (← application e (.indexField m field) (single (argument e key (term key))))
  | .member (.index base key) field => do
    return .prop (← verbatim (.member (.index base key) field) "nested index")
  | .member base field => do
    return .prop (← verbatim (.member base field) "member of a computed value")
  | .num digits => mismatch (.num digits) .boolean
  | .neg e => mismatch (.neg e) .boolean
  | .op o args =>
    let e := .op o args
    match o with
    | .and => do return .and (← formulas args)
    | .or => do return .or (← formulas args)
    | _ =>
      if o.isRelational then
        match args with
        | [a, b] =>
          if (o = .eq ∨ o = .ne) ∧ (a.isBoolean ∨ b.isBoolean) then do
            let same := agreement (← formula a) (← formula b)
            return if o = .eq then same else .not same
          else do
            let p ← term a
            let q ← term b
            return Constraint.ofComparison o p q
        | _ => wrongOperandCount e
      else mismatch e .boolean

/-- The formulas of operands. -/
def formulas : List Expr → Attempt (List Formula)
  | [] => pure []
  | e :: es => do
    let f ← formula e
    return f :: (← formulas es)
end

end Conversion

namespace Expr

/-- The formula of a predicate. -/
def toFormula (e : Expr) : Conversion.Attempt Formula := Conversion.formula e

/-- The polynomial of a term. -/
def toPoly (e : Expr) : Conversion.Attempt Poly := Conversion.term e

/-- The polynomial of a tree whose root is plainly arithmetic, the formula of any other. -/
def toSymbolic (e : Expr) : Conversion.Attempt Symbolic := do
  if e.isArithmetic then return .term (← e.toPoly) else return .formula (← e.toFormula)

end Expr
end PredicateStrength
