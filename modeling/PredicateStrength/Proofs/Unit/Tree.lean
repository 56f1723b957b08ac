import Mathlib
import PredicateStrength.Proofs.Expr.Canonical
import PredicateStrength.Proofs.Unit.Written

/-!
# Trees with units

The numerals of a tree may carry units. Such a tree means the one in which each numeral counts
smallest units. Whether its text can be read again is seen from the tree: its leaves are tokens,
it is not nested too deeply, and no factor that the table writes is torn off its number. That
happens behind `/` or `%`, next to `**`, and in front of a call or a key.

Main statement: each way in which a factor may stand apart from its number, or operands may group
differently in what is read, leaves the meaning as it is.
-/
namespace PredicateStrength

open Token

namespace Expr

/-- The factor of a numeral with a longer unit of time. -/
def factor? : Expr → Option String
  | .num leaf => (UnitSuffix.quantity? leaf).bind fun q => q.2.factor?
  | _ => none

/-- Such a numeral, also behind a sign, is read as a product. -/
def isProduct : Expr → Bool
  | .neg e => e.factor?.isSome
  | e => e.factor?.isSome

/-- The binding strength of what is read. -/
def strength (e : Expr) : Nat := if e.isProduct then 9 else e.precedence

/-- As an operand of `o`, the tree keeps the factors of its units: no factor stands behind it, or
parentheses enclose it, or the factor belongs to the product that the operand is part of. -/
def keepsFactor (o : Operator) (isFirst : Bool) (e : Expr) : Bool :=
  !e.isProduct || e.needsParens o.precedence (isTightPlace o isFirst) ||
    (o ≠ .pow && (isFirst || (o ≠ .div && o ≠ .mod)))

mutual
/-- No factor of a unit is torn off. -/
def unitsHold : Expr → Bool
  | .ident _ | .num _ | .bool _ => true
  | .not e | .neg e => unitsHold e
  | .op o args => operandsHold o true args
  | .call f args => f.factor?.isNone && unitsHold f && allHold args
  | .index base key => base.factor?.isNone && unitsHold base && unitsHold key
  | .member base _ => unitsHold base

def operandsHold (o : Operator) (isFirst : Bool) : List Expr → Bool
  | [] => true
  | e :: es => keepsFactor o isFirst e && unitsHold e && operandsHold o false es

def allHold : List Expr → Bool
  | [] => true
  | e :: es => unitsHold e && allHold es
end

/-- A name or a literal. -/
def isLeaf : Expr → Bool
  | .ident _ | .num _ | .bool _ => true
  | _ => false

mutual
/-- Each leaf is one token that the table does not look for, or a numeral with a unit; operators
have operands on both sides, and members have a base that is no leaf, since a dotted name is one
name. -/
def isReadable : Expr → Bool
  | .ident name => isPlainName name && name ≠ "true" && name ≠ "false"
  | .num leaf => (UnitSuffix.quantity? leaf).isSome || isWhole .number leaf
  | .bool _ => true
  | .not e | .neg e => isReadable e
  | .op o args => (args.length = 2 || o.isAssociative && 2 ≤ args.length) && allReadable args
  | .call f args => isReadable f && allReadable args
  | .index base key => isReadable base && isReadable key
  | .member base field => isField field && !base.isLeaf && isReadable base

def allReadable : List Expr → Bool
  | [] => true
  | e :: es => isReadable e && allReadable es
end

mutual
/-- The tree in which each numeral with a unit is the number of smallest units. -/
def inSmallestUnits : Expr → Expr
  | .num leaf =>
    match UnitSuffix.quantity? leaf with
    | some (digits, u) => .num (toString (Numeral.amount digits * u.scale))
    | none => .num leaf
  | .ident name => .ident name
  | .bool b => .bool b
  | .not e => .not (inSmallestUnits e)
  | .neg e => .neg (inSmallestUnits e)
  | .op o args => .op o (allInSmallestUnits args)
  | .call f args => .call (inSmallestUnits f) (allInSmallestUnits args)
  | .index base key => .index (inSmallestUnits base) (inSmallestUnits key)
  | .member base field => .member (inSmallestUnits base) field

def allInSmallestUnits : List Expr → List Expr
  | [] => []
  | e :: es => inSmallestUnits e :: allInSmallestUnits es
end

end Expr

/-- Numerals that denote natural numbers stand for these numbers. -/
def Interp.ReadsNaturals {K : Type} [CommRing K] (I : Interp K) : Prop :=
  ∀ (digits : String) (n : Nat), Numeral.value? digits = some (n : Rat) →
    I.literal? digits = some (n : K)

/-- The trees have the same meaning, whatever their names stand for. -/
def SamePlace (e f : Expr) : Prop :=
  ∀ (K : Type) [CommRing K] [LinearOrder K] (I : Interp K), I.ReadsNaturals →
    I.place? e = I.place? f

namespace SamePlace

variable {e e' f f' : Expr} {es fs : List Expr} {o : Operator}

theorem refl (e : Expr) : SamePlace e e := fun _ _ _ _ _ => rfl

theorem trans (h : SamePlace e e') (h' : SamePlace e' f) : SamePlace e f :=
  fun K _ _ I exact => (h K I exact).trans (h' K I exact)

theorem values? {K : Type} [CommRing K] [LinearOrder K] {I : Interp K} (exact : I.ReadsNaturals)
    (h : List.Forall₂ SamePlace es fs) : I.values? es = I.values? fs := by
  induction h with
  | nil => rfl
  | cons first _ ih =>
    rw [Interp.values?_cons, Interp.values?_cons, ih, Interp.value?, first K I exact]
    rfl

theorem not (h : SamePlace e f) : SamePlace (.not e) (.not f) := fun K _ _ I exact => by
  show (I.place? e).bind _ = (I.place? f).bind _
  rw [h K I exact]

theorem neg (h : SamePlace e f) : SamePlace (.neg e) (.neg f) := fun K _ _ I exact => by
  show (I.place? e).bind _ = (I.place? f).bind _
  rw [h K I exact]

theorem op (h : List.Forall₂ SamePlace es fs) : SamePlace (.op o es) (.op o fs) :=
  fun K _ _ I exact => by rw [Interp.place?_op, Interp.place?_op, values? exact h]

theorem binary (h : SamePlace e f) (h' : SamePlace e' f') :
    SamePlace (.binary o e e') (.binary o f f') := op (.cons h (.cons h' .nil))

theorem call (h : SamePlace e f) (args : List.Forall₂ SamePlace es fs) :
    SamePlace (.call e es) (.call f fs) := fun K _ _ I exact => by
  show (I.place? e).bind (fun p => (I.values? es).bind _) =
    (I.place? f).bind fun p => (I.values? fs).bind _
  rw [h K I exact, values? exact args]

theorem index (h : SamePlace e f) (h' : SamePlace e' f') :
    SamePlace (.index e e') (.index f f') := fun K _ _ I exact => by
  show (I.place? e).bind (fun p => (I.place? e').bind _) =
    (I.place? f).bind fun p => (I.place? f').bind _
  rw [h K I exact, h' K I exact]

theorem member (h : SamePlace e f) (field : String) :
    SamePlace (.member e field) (.member f field) := fun K _ _ I exact => by
  show (I.place? e).bind _ = (I.place? f).bind _
  rw [h K I exact]

theorem value?_op {K : Type} [CommRing K] [LinearOrder K] (I : Interp K) (o : Operator)
    (args : List Expr) : I.value? (.op o args) = (I.values? args).bind (I.operate o) := by
  rw [Interp.value?, Interp.place?_op]
  cases I.values? args with
  | none => rfl
  | some vs => cases operation : I.operate o vs <;> simp [operation]

theorem values?_nil {K : Type} [CommRing K] [LinearOrder K] (I : Interp K) :
    I.values? [] = some [] := rfl

/-- Products group either way. -/
theorem regroup_mul (a b c : Expr) :
    SamePlace (.binary .mul (.binary .mul a b) c) (.binary .mul a (.binary .mul b c)) := by
  intro K _ _ I _
  simp only [Expr.binary, Interp.place?_op, Interp.values?_cons, value?_op, values?_nil]
  rcases I.value? a with _ | (_ | x) <;> rcases I.value? b with _ | (_ | y) <;>
    rcases I.value? c with _ | (_ | z) <;>
    simp [Interp.operate, Value.isNum, Value.number, mul_assoc]

/-- A sign in front of a product may stand in front of its first factor. -/
theorem regroup_neg (a b : Expr) :
    SamePlace (.binary .mul (.neg a) b) (.neg (.binary .mul a b)) := by
  intro K _ _ I _
  have neg : ∀ e, I.value? (.neg e) = (I.value? e).bind Value.neg? := by
    intro e
    show ((I.place? e).bind fun p => (I.valueAt p).neg?.map Place.value).map I.valueAt = _
    rw [Interp.value?]
    rcases I.place? e with _ | p
    · rfl
    · rcases value : I.valueAt p with _ | x <;> simp [value, Value.neg?]
  have place : ∀ e, I.place? (.neg e) = (I.value? e).bind fun v => v.neg?.map .value := by
    intro e
    show ((I.place? e).bind fun p => (I.valueAt p).neg?.map Place.value) = _
    rw [Interp.value?]
    rcases I.place? e with _ | p <;> rfl
  simp only [Expr.binary, Interp.place?_op, Interp.values?_cons, value?_op, values?_nil, place, neg]
  rcases I.value? a with _ | (_ | x) <;> rcases I.value? b with _ | (_ | y) <;>
    simp [Interp.operate, Value.isNum, Value.number, Value.neg?]

theorem operate_cons_cons {K : Type} [CommRing K] [LinearOrder K] (I : Interp K)
    (assoc : o.isAssociative = true) (v w : Value K) (vs : List (Value K)) :
    I.operate o (v :: w :: vs) = (I.operate o [v, w]).bind fun u => I.operate o (u :: vs) := by
  rw [show v :: w :: vs = [v, w] ++ vs from rfl, Interp.operate_append assoc]
  cases first : I.operate o [v, w] with
  | none => rfl
  | some u =>
    rw [Option.bind_some, Option.bind_some, show u :: vs = [u] ++ vs from rfl,
      Interp.operate_append assoc, Interp.operate_singleton assoc first, Option.bind_some]

/-- The first two operands may be joined first. -/
theorem regroup_first (assoc : o.isAssociative = true) (a b : Expr) (cs : List Expr) :
    SamePlace (.op o (.binary o a b :: cs)) (.op o (a :: b :: cs)) := by
  intro K _ _ I _
  simp only [Expr.binary, Interp.place?_op, Interp.values?_cons, value?_op, values?_nil]
  cases I.value? a with
  | none => rfl
  | some v =>
    cases I.value? b with
    | none => rfl
    | some w =>
      cases I.values? cs with
      | none => cases I.operate o [v, w] <;> simp
      | some vs =>
        simp only [Option.bind_some, Option.map_some, operate_cons_cons I assoc v w vs]
        cases I.operate o [v, w] <;> rfl

/-- Operands that group to the left mean the same as all of them at once. -/
theorem foldl_binary {a b : Expr} {bs : List Expr} (assoc : bs ≠ [] → o.isAssociative = true) :
    SamePlace ((b :: bs).foldl (.binary o) a) (.op o (a :: b :: bs)) := by
  induction bs generalizing a b with
  | nil => exact refl _
  | cons c cs ih =>
    have joins := assoc (List.cons_ne_nil c cs)
    have later : SamePlace ((c :: cs).foldl (.binary o) (.binary o a b))
        (.op o (.binary o a b :: c :: cs)) := ih fun _ => joins
    exact later.trans (regroup_first joins a b (c :: cs))

theorem place?_num {K : Type} [CommRing K] [LinearOrder K] {I : Interp K} (exact : I.ReadsNaturals)
    {digits : String} {n : Nat} (value : Numeral.value? digits = some (n : Rat)) :
    I.place? (.num digits) = some (.value (.num (n : K))) := by
  show (I.literal? digits).map _ = _
  rw [exact digits n value]
  rfl

theorem value?_num {K : Type} [CommRing K] [LinearOrder K] {I : Interp K} (exact : I.ReadsNaturals)
    {digits : String} {n : Nat} (value : Numeral.value? digits = some (n : Rat)) :
    I.value? (.num digits) = some (.num (n : K)) := by
  rw [Interp.value?, place?_num exact value]
  rfl

theorem value?_toString (n : Nat) : Numeral.value? (toString n) = some (n : Rat) := by
  rw [Numeral.value?_of_isDigits (Numeral.isDigits_toString n), Numeral.amount_toString]

variable {digits factor : String} {u : UnitSuffix}

theorem joined (valid : Numeral.isDigits digits = true) (single : u.factor? = none) :
    SamePlace (.num (digits ++ u.replacement))
      (.num (toString (Numeral.amount digits * u.scale))) := fun K _ _ I exact => by
  rw [place?_num exact (UnitSuffix.value?_joined valid single).1, place?_num exact (value?_toString _)]

theorem product (valid : Numeral.isDigits digits = true) (product : u.factor? = some factor) :
    SamePlace (.binary .mul (.num digits) (.num factor))
      (.num (toString (Numeral.amount digits * u.scale))) := fun K _ _ I exact => by
  obtain ⟨factorDigits, amount⟩ := UnitSuffix.factor?_spec product
  have value := Numeral.value?_of_isDigits factorDigits
  rw [amount] at value
  rw [place?_num exact (value?_toString _), Expr.binary, Interp.place?_op, Interp.values?_cons,
    Interp.values?_cons, value?_num exact (Numeral.value?_of_isDigits valid),
    value?_num exact value]
  simp [values?_nil, Interp.operate, Value.isNum, Value.number]

end SamePlace
end PredicateStrength
