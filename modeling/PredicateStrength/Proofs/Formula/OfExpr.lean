import Mathlib
import PredicateStrength.Formula.OfExpr
import PredicateStrength.Proofs.Formula.Induction
import PredicateStrength.Proofs.Formula.Sorts

/-!
# Conversion keeps the meaning

A tree that stands for a number is converted to a polynomial with that value, whose atoms stand
for numbers; a tree that stands for a truth value, which is possible where an argument or a side
of an equality is a name or a read, becomes a single atom that stands for it. So nothing is counted
with that is no number, and the formula of a predicate is well sorted.

Main statements: `Conversion.term_sound` and `Conversion.formula_sound`.
-/
namespace PredicateStrength

variable {I : Interp Int}

/-- The atom stands for the value and is well sorted, and the polynomials inside it are in order and
have integer coefficients. -/
structure IsAtom (I : Interp Int) (a : Atom) (v : Value Int) : Prop where
  ordered : a.Everywhere Poly.Ordered
  integers : a.Everywhere Poly.IntegerCoeffs
  sorted : a.Sorted I
  meaning : a.meaning I = v

/-- The polynomial has the value, and its atoms stand for numbers. -/
structure IsQuantity (I : Interp Int) (p : Poly) (x : Rat) : Prop where
  ordered : p.Ordered
  value : I.valuation.value p = x
  atoms : ∀ a ∈ p.atoms, ∃ m, IsAtom I a (.num m)

/-- The polynomial has the value and integer coefficients, and its atoms stand for numbers. -/
structure IsNumber (I : Interp Int) (p : Poly) (n : Int) : Prop where
  ordered : p.Ordered
  integers : p.IntegerCoeffs
  value : I.valuation.value p = n
  atoms : ∀ a ∈ p.atoms, ∃ m, IsAtom I a (.num m)

/-- The polynomial stands for the value. -/
def Represents (I : Interp Int) (p : Poly) : Value Int → Prop
  | .num n => IsNumber I p n
  | .bool b => ∃ a, IsAtom I a (.bool b) ∧ p = .ofAtom a

namespace IsQuantity

variable {p q : Poly} {x y : Rat}

theorem const (x : Rat) : IsQuantity I (.const x) x where
  ordered := Poly.ordered_const x
  value := Valuation.value_const x
  atoms := by simp

theorem neg (h : IsQuantity I p x) : IsQuantity I (-p) (-x) where
  ordered := h.ordered.neg
  value := by rw [Valuation.value, Poly.value_neg, ← h.value, Valuation.value]
  atoms a ha := h.atoms a (Poly.atoms_neg ha)

theorem add (hp : IsQuantity I p x) (hq : IsQuantity I q y) : IsQuantity I (p + q) (x + y) where
  ordered := hp.ordered.add hq.ordered
  value := by rw [Valuation.value_add, hp.value, hq.value]
  atoms a ha := (Poly.atoms_add ha).elim (hp.atoms a) (hq.atoms a)

theorem sub (hp : IsQuantity I p x) (hq : IsQuantity I q y) : IsQuantity I (p - q) (x - y) where
  ordered := hp.ordered.sub hq.ordered
  value := by rw [Valuation.value_sub, hp.value, hq.value]
  atoms a ha := (Poly.atoms_sub ha).elim (hp.atoms a) (hq.atoms a)

theorem mul (hp : IsQuantity I p x) (hq : IsQuantity I q y) : IsQuantity I (p * q) (x * y) where
  ordered := hp.ordered.mul hq.ordered
  value := by
    rw [← hp.value, ← hq.value]
    exact Poly.value_mul _ p q
  atoms a ha := (Poly.atoms_mul ha).elim (hp.atoms a) (hq.atoms a)

theorem pow (hp : IsQuantity I p x) (k : Nat) : IsQuantity I (p.pow k) (x ^ k) where
  ordered := hp.ordered.pow k
  value := by
    rw [← hp.value]
    exact Poly.value_pow _ p k
  atoms a ha := hp.atoms a (Poly.atoms_pow ha)

theorem isNumeric (h : IsQuantity I p x) : p.IsNumeric I := by
  intro a ha
  obtain ⟨m, atom⟩ := h.atoms a ha
  rw [atom.meaning]
  rfl

theorem sorted (h : IsQuantity I p x) : ∀ a ∈ p.atoms, a.Sorted I :=
  fun a ha => (h.atoms a ha).elim fun _ atom => atom.sorted

/-- With integer coefficients it is a number. -/
theorem isNumber {n : Int} (h : IsQuantity I p x) (integers : p.IntegerCoeffs) (same : n = x) :
    IsNumber I p n where
  ordered := h.ordered
  integers := integers
  value := h.value.trans same.symm
  atoms := h.atoms

end IsQuantity

/-- Dividing every coefficient by a number that divides them all leaves integers. -/
theorem Poly.IntegerCoeffs.scale_inv {p : Poly} {k : Int} (hk : k ≠ 0)
    (dvd : p.divisibleBy k = true) : (p.scale (k : Rat)⁻¹).IntegerCoeffs := by
  have nonzero : (k : Rat) ≠ 0 := by exact_mod_cast hk
  refine .scale fun t ht => Poly.den_eq_one_iff_exists.2 ?_
  have divides := List.all_eq_true.1 dvd t ht
  rw [Bool.and_eq_true, decide_eq_true_eq, decide_eq_true_eq] at divides
  obtain ⟨c, hc⟩ := Int.dvd_of_emod_eq_zero divides.2
  refine ⟨c, ?_⟩
  rw [← (Rat.den_eq_one_iff _).1 divides.1, hc, Int.cast_mul, mul_comm, inv_mul_cancel_left₀ nonzero]

namespace IsNumber

variable {p q r : Poly} {m n : Int}

theorem quantity (h : IsNumber I p n) : IsQuantity I p n where
  ordered := h.ordered
  value := h.value
  atoms := h.atoms

theorem wellFormed (h : IsNumber I p n) : p.WellFormed :=
  Poly.everywhere_iff.2 ⟨h.ordered, fun a ha => (h.atoms a ha).elim fun _ atom => atom.ordered⟩

theorem integral (h : IsNumber I p n) : p.Integral :=
  Poly.everywhere_iff.2 ⟨h.integers, fun a ha => (h.atoms a ha).elim fun _ atom => atom.integers⟩

/-- What is made of the atoms of two numbers is made of well-sorted atoms. -/
theorem sorted_append (hp : IsNumber I p m) (hq : IsNumber I q n) :
    ∀ a ∈ p.atoms ++ q.atoms, a.Sorted I := fun a ha =>
  (List.mem_append.1 ha).elim (hp.quantity.sorted a) (hq.quantity.sorted a)

theorem ofAtom {a : Atom} (h : IsAtom I a (.num n)) : IsNumber I (.ofAtom a) n where
  ordered := Poly.ordered_ofAtom a
  integers := Poly.integerCoeffs_ofAtom a
  value := by
    rw [Valuation.value_ofAtom]
    show (((a.meaning I).number : Int) : Rat) = n
    rw [h.meaning]
    rfl
  atoms b hb := by
    rw [Poly.atoms_ofAtom, List.mem_singleton] at hb
    exact ⟨n, hb ▸ h⟩

theorem const (n : Int) : IsNumber I (.const n) n :=
  (IsQuantity.const n).isNumber (Poly.integerCoeffs_const (Rat.den_intCast n)) rfl

theorem zero : IsNumber I .zero 0 :=
  (IsQuantity.const 0).isNumber Poly.integerCoeffs_zero Int.cast_zero

theorem neg (h : IsNumber I p n) : IsNumber I (-p) (-n) :=
  h.quantity.neg.isNumber h.integers.neg (Int.cast_neg n)

theorem add (hp : IsNumber I p m) (hq : IsNumber I q n) : IsNumber I (p + q) (m + n) :=
  (hp.quantity.add hq.quantity).isNumber (hp.integers.add hq.integers) (Int.cast_add m n)

theorem sub (hp : IsNumber I p m) (hq : IsNumber I q n) : IsNumber I (p - q) (m - n) :=
  (hp.quantity.sub hq.quantity).isNumber (hp.integers.sub hq.integers) (Int.cast_sub m n)

theorem mul (hp : IsNumber I p m) (hq : IsNumber I q n) : IsNumber I (p * q) (m * n) :=
  (hp.quantity.mul hq.quantity).isNumber (hp.integers.mul hq.integers) (Int.cast_mul m n)

theorem pow (hp : IsNumber I p m) (k : Nat) : IsNumber I (p.pow k) (m ^ k) :=
  (hp.quantity.pow k).isNumber (hp.integers.pow k) (Int.cast_pow m k)

/-- Dividing every coefficient by a number that divides them all. -/
theorem scale_inv (hp : IsNumber I p m) {k : Int} (hk : k ≠ 0) (dvd : p.divisibleBy k = true) :
    IsNumber I (p.scale (k : Rat)⁻¹) (m.tdiv k) := by
  have nonzero : (k : Rat) ≠ 0 := by exact_mod_cast hk
  have integers : (p.scale (k : Rat)⁻¹).IntegerCoeffs := .scale_inv hk dvd
  refine ⟨hp.ordered.scale _, integers, ?_, fun a ha => hp.atoms a (Poly.atoms_scale ha)⟩
  obtain ⟨c, hc⟩ := integers.value_eq_int I.valuation.number
  have quotient : (k : Rat)⁻¹ * m = c := by
    rw [← hp.value, ← Valuation.value_scale]
    exact hc
  have product : m = k * c := by
    have scaled : (m : Rat) = k * c := by rw [← quotient, mul_inv_cancel_left₀ nonzero]
    exact_mod_cast scaled
  rw [product, Int.mul_tdiv_cancel_left c hk]
  exact hc

end IsNumber

theorem IsAtom.represents {a : Atom} {v : Value Int} (h : IsAtom I a v) :
    Represents I (.ofAtom a) v := by
  cases v with
  | num n => exact .ofAtom h
  | bool b => exact ⟨a, h, rfl⟩

/-- The polynomial is a number or a truth value, by its sort, and it counts as the number. -/
structure IsSide (I : Interp Int) (p : Poly) (s : ValueSort) (x : Rat) : Prop where
  ordered : p.Ordered
  atoms : ∀ a ∈ p.atoms, ∃ v, IsAtom I a v
  sort : p.HasSort I s
  value : I.valuation.value p = x

theorem IsQuantity.isSide {p : Poly} {x : Rat} (h : IsQuantity I p x) :
    IsSide I p .integer x where
  ordered := h.ordered
  atoms a ha := (h.atoms a ha).imp' Value.num fun _ => id
  sort := h.isNumeric
  value := h.value

theorem IsAtom.isSide {a : Atom} {b : Bool} (h : IsAtom I a (.bool b)) :
    IsSide I (.ofAtom a) .boolean (Value.bool b : Value Int).number where
  ordered := Poly.ordered_ofAtom a
  atoms := by simpa using ⟨_, h⟩
  sort := ⟨a, by rw [h.meaning, Value.isBool], rfl⟩
  value := by
    rw [Valuation.value_ofAtom, ← h.meaning]
    rfl

namespace Represents

variable {p : Poly} {v : Value Int}

theorem wellFormed (h : Represents I p v) : p.WellFormed := by
  cases v with
  | num n => exact IsNumber.wellFormed h
  | bool b =>
    obtain ⟨a, atom, rfl⟩ := h
    exact Poly.everywhere_iff.2 ⟨Poly.ordered_ofAtom a, by simpa using atom.ordered⟩

theorem integral (h : Represents I p v) : p.Integral := by
  cases v with
  | num n => exact IsNumber.integral h
  | bool b =>
    obtain ⟨a, atom, rfl⟩ := h
    exact Poly.everywhere_iff.2 ⟨Poly.integerCoeffs_ofAtom a, by simpa using atom.integers⟩

theorem isSide (h : Represents I p v) : IsSide I p v.sort v.number := by
  cases v with
  | num n => exact (IsNumber.quantity h).isSide
  | bool b =>
    obtain ⟨a, atom, rfl⟩ := h
    exact atom.isSide

theorem value (h : Represents I p v) : I.valuation.value p = v.number := h.isSide.value

theorem sorted (h : Represents I p v) : ∀ a ∈ p.atoms, a.Sorted I :=
  fun a ha => (h.isSide.atoms a ha).elim fun _ atom => atom.sorted

/-- As an argument the polynomial is the value. -/
theorem evaluate (h : Represents I p v) : (p.evaluate I).value = v := by
  cases v with
  | num n =>
    rw [Poly.value_evaluate_of_isNumeric (IsNumber.quantity h).isNumeric, IsNumber.value h,
      Rat.floor_intCast]
  | bool b =>
    obtain ⟨a, atom, rfl⟩ := h
    exact atom.meaning

end Represents

/-- The polynomials stand for the values. -/
def RepresentsAll (I : Interp Int) : List Poly → List (Value Int) → Prop :=
  List.Forall₂ (Represents I)

namespace RepresentsAll

theorem everywhere {ps : List Poly} {vs : List (Value Int)} (h : RepresentsAll I ps vs) :
    Poly.EverywhereAll Poly.Ordered ps ∧ Poly.EverywhereAll Poly.IntegerCoeffs ps := by
  induction h with
  | nil => exact ⟨trivial, trivial⟩
  | cons first _ ih => exact ⟨⟨first.wellFormed, ih.1⟩, ⟨first.integral, ih.2⟩⟩

theorem values {ps : List Poly} {vs : List (Value Int)} (h : RepresentsAll I ps vs) :
    (Poly.evaluateAll I ps).map Evaluated.value = vs := by
  induction h with
  | nil => rfl
  | cons first _ ih => rw [Poly.evaluateAll, List.map_cons, first.evaluate, ih]

theorem exists_value {ps : List Poly} {vs : List (Value Int)} (h : RepresentsAll I ps vs) :
    ∀ p ∈ ps, ∃ v, Represents I p v := by
  induction h with
  | nil => nofun
  | cons first _ ih => exact List.forall_mem_cons.2 ⟨⟨_, first⟩, ih⟩

/-- An application to polynomials that stand for the arguments. -/
theorem isAtom {head : Head} {ps : List Poly} {vs : List (Value Int)}
    (args : RepresentsAll I ps vs) : IsAtom I (.app head ps) (I.application head vs) where
  ordered := args.everywhere.1
  integers := args.everywhere.2
  sorted := .app (fun p mem => (args.exists_value p mem).elim fun _ arg => arg.isSide.sort.isArgument)
    fun p mem => (args.exists_value p mem).elim fun _ arg => arg.sorted
  meaning := by rw [Atom.meaning, args.values]

end RepresentsAll

namespace Conversion
open Attempt Interp

theorem isAtom_verbatim {e : Expr} {v : Value Int} (value : I.value? e = some v) :
    IsAtom I (.verbatim e) v where
  ordered := trivial
  integers := trivial
  sorted := .verbatim value
  meaning := by rw [Atom.meaning, value, Option.getD_some]

theorem isAtom_symbol {name : String} {v : Value Int} (value : I.value? (.ident name) = some v) :
    IsAtom I (.symbol name) v where
  ordered := trivial
  integers := trivial
  sorted := .symbol name
  meaning := Option.some.inj value

theorem numeral_sound {e : Expr} {digits : String} (arith : I.Arithmetical) {n : Int}
    (literal : I.literal? digits = some n) (value : I.value? e = some (.num n)) {p : Poly}
    (h : (numeral e digits).result = .ok p) : IsNumber I p n := by
  unfold numeral at h
  split at h
  · next q denoted =>
    cases h
    rw [arith.literal digits q n denoted literal]
    exact .const n
  · cases h
    exact .ofAtom (isAtom_verbatim value)

section Arithmetic

variable {e : Expr} {p q r : Poly} {m n : Int}

theorem isNumber_verbatim {z : Int} {reason : String} (value : I.value? e = some (.num z))
    (h : ((return .ofAtom (← verbatim e reason) : Attempt Poly)).result = .ok r) :
    IsNumber I r z := by
  cases h
  exact .ofAtom (isAtom_verbatim value)

/-- A constant among numbers is an integer. -/
theorem IsNumber.constant {c : Rat} (h : IsNumber I p n) (constant : p.constant? = some c) :
    c = n := by
  rw [← h.value]
  exact (Poly.value_of_constant? _ constant).symm

theorem divide_sound (hp : IsNumber I p m) (hq : IsNumber I q n)
    (value : I.value? e = some (.num (m.tdiv n))) (h : (divide e p q).result = .ok r) :
    IsNumber I r (m.tdiv n) := by
  have quot : IsNumber I (.ofAtom (.quot p q)) (m.tdiv n) := by
    refine .ofAtom ⟨⟨hp.wellFormed, hq.wellFormed⟩, ⟨hp.integral, hq.integral⟩,
      .quot hp.quantity.isNumeric hq.quantity.isNumeric (hp.sorted_append hq), ?_⟩
    rw [Atom.meaning, Poly.integer_evaluate hp.value, Poly.integer_evaluate hq.value]
  unfold divide at h
  split at h
  · cases h
    exact quot
  · next c constant =>
    cases IsNumber.constant hq constant
    split at h
    · exact isNumber_verbatim value h
    · next nonzero =>
      split at h
      · next c' constant' =>
        cases IsNumber.constant hp constant'
        rw [if_pos ⟨Rat.den_intCast m, Rat.den_intCast n⟩] at h
        cases h
        rw [Rat.num_intCast, Rat.num_intCast]
        exact .const _
      · split at h
        · next divisible =>
          cases h
          rw [Rat.num_intCast] at divisible
          exact hp.scale_inv (by exact_mod_cast nonzero) divisible.2
        · cases h
          exact quot

theorem IsNumber.integer {k : Int} (h : IsNumber I p n) (integer : p.integer? = some k) :
    k = n := by
  have value := I.valuation.value_of_integer? integer
  rw [h.value] at value
  exact (Int.cast_inj.1 value).symm

theorem remainder_sound (hp : IsNumber I p m) (hq : IsNumber I q n)
    (value : I.value? e = some (.num (m.tmod n))) (h : (remainder e p q).result = .ok r) :
    IsNumber I r (m.tmod n) := by
  have rem : IsNumber I (.ofAtom (.rem p q)) (m.tmod n) := by
    refine .ofAtom ⟨⟨hp.wellFormed, hq.wellFormed⟩, ⟨hp.integral, hq.integral⟩,
      .rem hp.quantity.isNumeric hq.quantity.isNumeric (hp.sorted_append hq), ?_⟩
    rw [Atom.meaning, Poly.integer_evaluate hp.value, Poly.integer_evaluate hq.value]
  unfold remainder at h
  split at h
  · next k constant =>
    cases IsNumber.integer hq constant
    split at h
    · exact isNumber_verbatim value h
    · split at h
      · next k' constant' =>
        cases IsNumber.integer hp constant'
        cases h
        exact .const _
      · split at h
        · next one =>
          cases h
          rw [one, Int.tmod_one]
          exact .zero
        · cases h
          exact rem
  · cases h
    exact rem

theorem power_sound (arith : I.Arithmetical) (hp : IsNumber I p m) (hq : IsNumber I q n)
    (value : I.value? e = some (.num (I.arith .pow m n))) (h : (power e p q).result = .ok r) :
    IsNumber I r (I.arith .pow m n) := by
  unfold power at h
  dsimp only at h
  generalize (if p.constant?.isSome = true then maxConstantExponent else maxSymbolicExponent) =
    limit at h
  split at h
  · next k constant =>
    cases IsNumber.integer hq constant
    split at h
    · next small =>
      rw [Poly.eq_pow_of_pow? (orOverflow_eq_ok.1 h)]
      obtain ⟨k, rfl⟩ := Int.eq_ofNat_of_zero_le small.1
      rw [arith.pow]
      exact hp.pow k
    · exact isNumber_verbatim value h
  · exact isNumber_verbatim value h

theorem bitwise_sound {o : Operator} (arith : I.Arithmetical)
    (isBitwise : o = .bitAnd ∨ o = .bitOr ∨ o = .bitXor) (hp : IsNumber I p m)
    (hq : IsNumber I q n) (value : I.value? e = some (.num (I.arith o m n)))
    (h : (bitwise e o p q).result = .ok r) : IsNumber I r (I.arith o m n) := by
  unfold bitwise at h
  split at h
  · next j k constant constant' =>
    cases IsNumber.integer hp constant
    cases IsNumber.integer hq constant'
    split at h
    · next nonneg =>
      obtain ⟨j, rfl⟩ := Int.eq_ofNat_of_zero_le nonneg.1
      obtain ⟨k, rfl⟩ := Int.eq_ofNat_of_zero_le nonneg.2
      cases h
      have natural : I.arith o j k = (bitOperation o j k : Nat) := by
        rcases isBitwise with rfl | rfl | rfl
        · exact arith.bitAnd j k
        · exact arith.bitOr j k
        · exact arith.bitXor j k
      rw [natural]
      exact .const _
    · exact isNumber_verbatim value h
  · exact isNumber_verbatim value h

/-- An arithmetic operation on polynomials is the operation on their values. -/
theorem arithmetic_sound {o : Operator} {z : Int} (arith : I.Arithmetical) (hp : IsNumber I p m)
    (hq : IsNumber I q n) (operation : I.operate o [.num m, .num n] = some (.num z))
    (value : o.isFree = true → I.value? e = some (.num z))
    (h : (arithmetic e o p q).result = .ok r) : IsNumber I r z := by
  by_cases free : o.isFree = true
  · obtain ⟨x, y, same, result⟩ := operate_free free operation
    cases same
    cases result
    have value := value free
    cases o <;> simp only [Operator.isFree, Bool.false_eq_true] at free
    case div =>
      rw [arith.div] at value ⊢
      exact divide_sound hp hq value h
    case mod =>
      rw [arith.mod] at value ⊢
      exact remainder_sound hp hq value h
    case pow => exact power_sound arith hp hq value h
    case bitAnd => exact bitwise_sound arith (.inl rfl) hp hq value h
    case bitOr => exact bitwise_sound arith (.inr (.inl rfl)) hp hq value h
    case bitXor => exact bitwise_sound arith (.inr (.inr rfl)) hp hq value h
  · cases o <;> simp [Operator.isFree] at free <;>
      simp [operate, Value.isNum, Value.number] at operation
    case add =>
      cases h
      exact operation ▸ hp.add hq
    case sub =>
      cases h
      exact operation ▸ hp.sub hq
    case mul =>
      rw [Poly.eq_mul_of_mul? (orOverflow_eq_ok.1 h)]
      exact operation ▸ hp.mul hq

end Arithmetic

section Operands

variable {K : Type} [CommRing K] [LinearOrder K] {I : Interp K}

theorem isFree_of_sum {o : Operator} (sum : o = .add ∨ o = .mul) : o.isFree = false := by
  rcases sum with rfl | rfl <;> rfl

theorem operate_cons_num {o : Operator} (sum : o = .add ∨ o = .mul) {w v : Value K}
    {ws : List (Value K)} (h : I.operate o (w :: ws) = some v) : ∃ x, w = .num x := by
  refine Value.isNum_iff_exists.1 ?_
  rcases sum with rfl | rfl <;>
    simp only [operate, List.all_cons, Bool.and_eq_true, Option.ite_none_right_eq_some] at h
  · exact h.1.1
  · exact h.1.1.1

theorem operate_single {o : Operator} (sum : o = .add ∨ o = .mul) (x : K) :
    I.operate o [.num x] = some (.num x) := by
  rcases sum with rfl | rfl <;> simp [operate, Value.isNum, Value.number]

/-- The first two operands may be joined first. -/
theorem operate_fuse {o : Operator} (sum : o = .add ∨ o = .mul) {x : K} {w v : Value K}
    {ws : List (Value K)} (h : I.operate o (.num x :: w :: ws) = some v) :
    ∃ y z, w = .num y ∧ I.operate o [.num x, .num y] = some (.num z) ∧
      I.operate o (.num z :: ws) = some v := by
  have num : ∃ y, w = .num y := by
    refine Value.isNum_iff_exists.1 ?_
    rcases sum with rfl | rfl <;>
      simp only [operate, List.all_cons, Bool.and_eq_true, Option.ite_none_right_eq_some] at h
    · exact h.1.2.1
    · exact h.1.1.2.1
  obtain ⟨y, rfl⟩ := num
  rcases sum with rfl | rfl
  · refine ⟨y, x + y, rfl, by simp [operate, Value.isNum, Value.number], ?_⟩
    rw [← h]
    simp [operate, Value.isNum, Value.number, add_assoc]
  · refine ⟨y, x * y, rfl, by simp [operate, Value.isNum, Value.number], ?_⟩
    rw [← h]
    simp [operate, Value.isNum, Value.number, mul_assoc]

theorem operate_pair {o : Operator} (binary : (o == .sub || o.isFree) = true)
    {vs : List (Value K)} {v : Value K} (h : I.operate o vs = some v) :
    ∃ x y z, vs = [.num x, .num y] ∧ v = .num z := by
  by_cases free : o.isFree = true
  · obtain ⟨x, y, rfl, rfl⟩ := operate_free free h
    exact ⟨x, y, _, rfl, rfl⟩
  · cases o <;> simp [Operator.isFree] at binary free
    simp only [operate] at h
    split at h <;> cases h
    exact ⟨_, _, _, rfl, rfl⟩

end Operands

/-- An application has the value that the interpretation gives it at those of its arguments. -/
theorem value?_application {e : Expr} {head : Head} {args : List Expr} {v : Value Int}
    (shape : IsApplication e head args) (value : I.value? e = some v) :
    ∃ vs, I.values? args = some vs ∧ I.application head vs = v := by
  obtain ⟨p, place, rfl⟩ := Option.map_eq_some_iff.1 value
  cases shape with
  | call f =>
    obtain ⟨vs, values, call⟩ := Option.bind_eq_some_iff.1 place
    exact ⟨vs, values, by rw [Interp.application, call]; rfl⟩
  | index m key =>
    obtain ⟨q, keyPlace, index⟩ := Option.bind_eq_some_iff.1 place
    obtain ⟨-, rfl⟩ := Place.index?_eq_some.1 index
    have keyValue : I.value? key = some (I.valueAt q) := Option.map_eq_some_iff.2 ⟨q, keyPlace, rfl⟩
    exact ⟨[I.valueAt q], values?_eq_some_iff.2 (.cons keyValue .nil), rfl⟩
  | indexField m field key =>
    obtain ⟨r, basePlace, member⟩ := Option.bind_eq_some_iff.1 place
    have element : ((I.place? key).bind fun k => (Place.name m).index? (I.valueAt k)) = some r :=
      basePlace
    obtain ⟨q, keyPlace, index⟩ := Option.bind_eq_some_iff.1 element
    obtain ⟨-, rfl⟩ := Place.index?_eq_some.1 index
    obtain ⟨-, rfl⟩ := Place.member?_eq_some.1 member
    have keyValue : I.value? key = some (I.valueAt q) := Option.map_eq_some_iff.2 ⟨q, keyPlace, rfl⟩
    exact ⟨[I.valueAt q], values?_eq_some_iff.2 (.cons keyValue .nil), rfl⟩

theorem value?_num {K : Type} [CommRing K] [LinearOrder K] {I : Interp K} {digits : String}
    {v : Value K} (value : I.value? (.num digits) = some v) :
    ∃ n, I.literal? digits = some n ∧ v = .num n := by
  obtain ⟨p, place, rfl⟩ := Option.map_eq_some_iff.1 value
  obtain ⟨n, literal, rfl⟩ := Option.map_eq_some_iff.1 place
  exact ⟨n, literal, rfl⟩

/-- Polynomials that stand for the values of their trees, beside these values. -/
theorem representsAll_of_values {es : List Expr} {ps : List Poly} {vs : List (Value Int)}
    (operands : List.Forall₂ (fun e p => ∀ v, I.value? e = some v → Represents I p v) es ps)
    (values : I.values? es = some vs) : RepresentsAll I ps vs :=
  forall₂_beside operands (values?_eq_some_iff.1 values) fun _ _ v sound => sound v

/-- The atom of a call, an element or a member stands for its value. -/
theorem isAtom_of_access {e : Expr} {a : Atom} {v : Value Int}
    (h : Access (fun e p => ∀ v, I.value? e = some v → Represents I p v) e a)
    (value : I.value? e = some v) : IsAtom I a v := by
  cases h with
  | application shape operands =>
    obtain ⟨vs, values, applied⟩ := value?_application shape value
    exact applied ▸ (representsAll_of_values operands values).isAtom
  | _ => exact isAtom_verbatim value

/-- The operands of a sum or product behind those that make `p`. -/
theorem foldlM_sound (arith : I.Arithmetical) {e : Expr} {o : Operator} (sum : o = .add ∨ o = .mul)
    {ps : List Poly} {vs : List (Value Int)} {v : Value Int} {x : Int} {p q : Poly}
    (operands : RepresentsAll I ps vs) (hp : IsNumber I p x)
    (operation : I.operate o (.num x :: vs) = some v)
    (h : (ps.foldlM (arithmetic e o) p).result = .ok q) : Represents I q v := by
  induction operands generalizing p x with
  | nil =>
    cases h
    cases operation.symm.trans (operate_single sum x)
    exact hp
  | cons first rest ih =>
    obtain ⟨y, z, rfl, fused, later⟩ := operate_fuse sum operation
    obtain ⟨s, result, h⟩ := Attempt.bind_eq_ok.1 h
    have known (free : o.isFree = true) : I.value? e = some (.num z) :=
      absurd free (by simp [isFree_of_sum sum])
    exact ih (arithmetic_sound arith hp first fused known result) later h

theorem termCases_sound (arith : I.Arithmetical) :
    TermCases fun e p => ∀ v, I.value? e = some v → Represents I p v where
  name x v value := (isAtom_symbol value).represents
  numeral result v value := by
    obtain ⟨n, literal, rfl⟩ := value?_num value
    exact numeral_sound arith literal value result
  neg operand v value := by
    obtain ⟨x, known, rfl⟩ := value?_neg_eq_some.1 value
    exact IsNumber.neg (operand _ known)
  access access _ v value := (isAtom_of_access access value).represents
  empty sum v value := by
    obtain ⟨vs, values, operation⟩ := value?_op_eq_some.1 value
    cases values
    rcases sum with rfl | rfl <;> cases operation
    exact IsNumber.zero
  joined sum first rest result v value := by
    obtain ⟨vs, values, operation⟩ := value?_op_eq_some.1 value
    cases representsAll_of_values (.cons first rest) values with
    | cons here others =>
      obtain ⟨x, rfl⟩ := operate_cons_num sum operation
      exact foldlM_sound arith sum others here operation result
  pair binary left right result _ v value := by
    obtain ⟨vs, values, operation⟩ := value?_op_eq_some.1 value
    obtain ⟨x, y, z, rfl, rfl⟩ := operate_pair binary operation
    obtain ⟨va, vb, ha, hb, same⟩ := values?_pair.1 values
    cases same
    exact arithmetic_sound arith (left _ ha) (right _ hb) operation (fun _ => value) result

/-- The polynomial of a tree stands for the value of the tree. -/
theorem term_sound (arith : I.Arithmetical) {e : Expr} {v : Value Int} {p : Poly}
    (value : I.value? e = some v) (h : (term e).result = .ok p) : Represents I p v :=
  (termCases_sound arith).term h v value

/-- The formula is true or false and well sorted, and its polynomials are in order and have integer
coefficients. -/
structure IsTruth (I : Interp Int) (f : Formula) (b : Bool) : Prop where
  wellFormed : f.WellFormed
  integral : f.Integral
  sorted : f.Sorted I
  holds : f.Holds I.valuation ↔ b = true

namespace IsTruth

variable {f g : Formula} {b c : Bool}

theorem prop {a : Atom} (h : IsAtom I a (.bool b)) : IsTruth I (.prop a) b where
  wellFormed := trivial
  integral := trivial
  sorted := ⟨h.sorted, by rw [h.meaning]; rfl⟩
  holds := by
    show (a.meaning I).truth = true ↔ b = true
    rw [h.meaning]
    rfl

theorem not (h : IsTruth I f b) : IsTruth I (.not f) (!b) where
  wellFormed := h.wellFormed
  integral := h.integral
  sorted := h.sorted
  holds := by
    show ¬f.Holds I.valuation ↔ _
    rw [h.holds]
    simp

theorem agreement (hf : IsTruth I f b) (hg : IsTruth I g c) :
    IsTruth I (agreement f g) (b == c) where
  wellFormed := ⟨⟨hf.wellFormed, hg.wellFormed, trivial⟩,
    ⟨hf.wellFormed, hg.wellFormed, trivial⟩, trivial⟩
  integral := ⟨⟨hf.integral, hg.integral, trivial⟩, ⟨hf.integral, hg.integral, trivial⟩, trivial⟩
  sorted := ⟨⟨hf.sorted, hg.sorted, trivial⟩, ⟨hf.sorted, hg.sorted, trivial⟩, trivial⟩
  holds := by
    simp only [Conversion.agreement, Formula.Holds, Formula.HoldSome, Formula.HoldAll, hf.holds,
      hg.holds]
    cases b <;> cases c <;> simp

theorem and {fs : List Formula} {bs : List Bool} (h : List.Forall₂ (IsTruth I) fs bs) :
    IsTruth I (.and fs) (bs.all id) := by
  induction h with
  | nil => exact ⟨trivial, trivial, trivial, by simp [Formula.Holds, Formula.HoldAll]⟩
  | cons first _ ih =>
    refine ⟨⟨first.wellFormed, ih.wellFormed⟩, ⟨first.integral, ih.integral⟩,
      ⟨first.sorted, ih.sorted⟩, ?_⟩
    rw [List.all_cons, Bool.and_eq_true, ← ih.holds]
    exact and_congr_left' first.holds

theorem or {fs : List Formula} {bs : List Bool} (h : List.Forall₂ (IsTruth I) fs bs) :
    IsTruth I (.or fs) (bs.any id) := by
  induction h with
  | nil => exact ⟨trivial, trivial, trivial, by simp [Formula.Holds, Formula.HoldSome]⟩
  | cons first _ ih =>
    refine ⟨⟨first.wellFormed, ih.wellFormed⟩, ⟨first.integral, ih.integral⟩,
      ⟨first.sorted, ih.sorted⟩, ?_⟩
    rw [List.any_cons, Bool.or_eq_true, ← ih.holds]
    exact or_congr_left first.holds

end IsTruth

theorem relate_intCast (o : Operator) (m n : Int) :
    relate o (m : Rat) (n : Rat) = relate o m n := by
  cases o <;> simp [relate]

/-- Only values of one sort are compared. -/
theorem sort_eq_of_operate {K : Type} [CommRing K] [LinearOrder K] {I : Interp K} {o : Operator}
    (rel : o.isRelational = true) {v w : Value K} {b : Bool}
    (operation : I.operate o [v, w] = some (.bool b)) : v.sort = w.sort := by
  cases v <;> cases w <;> first | rfl | (cases o <;> cases rel <;> cases operation)

/-- Truth values are equal exactly if the numbers are that they count as. -/
theorem relate_number {K : Type} [CommRing K] [LinearOrder K] [IsStrictOrderedRing K]
    {I : Interp K} {o : Operator} (rel : o.isRelational = true) {v w : Value K} {b : Bool}
    (operation : I.operate o [v, w] = some (.bool b)) : relate o v.number w.number = b := by
  have same := sort_eq_of_operate rel operation
  cases v with
  | num x =>
    cases w with
    | num y =>
      rw [operate_num rel] at operation
      exact Value.bool.inj (Option.some.inj operation)
    | bool c => cases same
  | bool a =>
    cases w with
    | num y => cases same
    | bool c =>
      cases o <;> cases rel <;> cases operation <;> cases a <;> cases c <;>
        simp [relate, Value.number]

/-- A comparison of two sides of one sort compares what they count as. -/
theorem isTruth_ofComparison {o : Operator} (rel : o.isRelational = true) {p q : Poly}
    {s : ValueSort} {x y : Rat} (hp : IsSide I p s x) (hq : IsSide I q s y) :
    IsTruth I (Constraint.ofComparison o p q) (relate o x y) where
  wellFormed := Constraint.over_ofComparison hp.ordered hq.ordered
    fun r ordered _ atoms => Poly.everywhere_iff.2 ⟨ordered, fun a ha =>
      ((atoms a ha).elim (hp.atoms a) (hq.atoms a)).elim fun _ atom => atom.ordered⟩
  integral := Constraint.over_ofComparison hp.ordered hq.ordered
    fun r _ integers atoms => Poly.everywhere_iff.2 ⟨integers, fun a ha =>
      ((atoms a ha).elim (hp.atoms a) (hq.atoms a)).elim fun _ atom => atom.integers⟩
  sorted := Constraint.sorted_ofComparison hp.ordered hq.ordered (hp.sort.sameSort hq.sort)
    fun a ha => (ha.elim (hp.atoms a) (hq.atoms a)).elim fun _ atom => atom.sorted
  holds := by
    rw [Constraint.holds_ofComparison rel hp.ordered hq.ordered, hp.value, hq.value]

/-- A comparison of polynomials is the comparison of what they stand for. -/
theorem ofComparison_sound {o : Operator} (rel : o.isRelational = true) {p q : Poly}
    {v w : Value Int} (hp : Represents I p v) (hq : Represents I q w) {b : Bool}
    (operation : I.operate o [v, w] = some (.bool b)) :
    IsTruth I (Constraint.ofComparison o p q) b := by
  have same := sort_eq_of_operate rel operation
  have truth := isTruth_ofComparison rel hp.isSide (same ▸ hq.isSide)
  rwa [relate_intCast, relate_number rel operation] at truth

/-- A truth value by its shape is no number. -/
theorem term_isBoolean {e : Expr} (root : e.isBoolean = true) {p : Poly} :
    (term e).result ≠ .ok p := by
  cases e <;> simp only [Expr.isBoolean, Bool.false_eq_true, Bool.or_eq_true] at root
  case bool => rintro ⟨⟩
  case not => rintro ⟨⟩
  case op o args =>
    cases o <;> simp only [Operator.isRelational, Operator.isLogical, Bool.false_eq_true, or_self]
      at root
    all_goals rintro ⟨⟩

theorem isBool_of_isBoolean {K : Type} [CommRing K] [LinearOrder K] {I : Interp K} {e : Expr}
    (root : e.isBoolean = true) {v : Value K} (value : I.value? e = some v) : v.isBool = true := by
  obtain ⟨p, place, rfl⟩ := Option.map_eq_some_iff.1 value
  obtain ⟨b, rfl⟩ := place?_of_isBoolean root place
  rfl

/-- If one side of an equality is a truth value, the other one is. -/
theorem operate_equality_bool {K : Type} [CommRing K] [LinearOrder K] {I : Interp K} {o : Operator}
    (isEq : o = .eq ∨ o = .ne) {v w : Value K} {b : Bool}
    (bool : v.isBool = true ∨ w.isBool = true) (operation : I.operate o [v, w] = some (.bool b)) :
    ∃ c c', v = .bool c ∧ w = .bool c' ∧ b = if o = .eq then c == c' else !(c == c') := by
  rcases isEq with rfl | rfl <;> cases v <;> cases w <;>
    simp [Value.isBool, operate] at bool operation ⊢ <;> exact operation.symm

section Truths

variable {K : Type} [CommRing K] [LinearOrder K] {J : Interp K}

/-- Two trees agree, or differ, exactly if their formulas do. -/
theorem equality_sound {o : Operator} (isEq : o = .eq ∨ o = .ne) {a b : Expr} {f g : Formula}
    (shapes : a.isBoolean = true ∨ b.isBoolean = true)
    (left : ∀ c, J.value? a = some (.bool c) → IsTruth I f c)
    (right : ∀ c, J.value? b = some (.bool c) → IsTruth I g c) {t : Bool}
    (value : J.value? (.op o [a, b]) = some (.bool t)) :
    IsTruth I (if o = .eq then agreement f g else .not (agreement f g)) t := by
  obtain ⟨vs, values, operation⟩ := value?_op_eq_some.1 value
  obtain ⟨v, w, ha, hb, rfl⟩ := values?_pair.1 values
  have bool := shapes.imp (isBool_of_isBoolean · ha) (isBool_of_isBoolean · hb)
  obtain ⟨c, c', rfl, rfl, rfl⟩ := operate_equality_bool isEq bool operation
  have same := (left c ha).agreement (right c' hb)
  split
  · exact same
  · exact same.not

variable {es : List Expr} {fs : List Formula}

theorem truths_of_values {vs : List (Value K)}
    (operands : List.Forall₂ (fun e f => ∀ c, J.value? e = some (.bool c) → IsTruth I f c) es fs)
    (values : J.values? es = some vs) (bools : vs.all Value.isBool = true) :
    List.Forall₂ (IsTruth I) fs (vs.map Value.truth) := by
  have each := values?_eq_some_iff.1 values
  clear values
  induction operands generalizing vs with
  | nil =>
    cases each
    exact .nil
  | cons sound _ ih =>
    cases each with
    | @cons _ v _ vs value rest =>
      rw [List.all_cons, Bool.and_eq_true] at bools
      obtain ⟨c, rfl⟩ := Value.isBool_iff_exists.1 bools.1
      exact .cons (sound c value) (ih bools.2 rest)

theorem and_sound {b : Bool}
    (operands : List.Forall₂ (fun e f => ∀ c, J.value? e = some (.bool c) → IsTruth I f c) es fs)
    (value : J.value? (.op .and es) = some (.bool b)) : IsTruth I (.and fs) b := by
  obtain ⟨vs, values, operation⟩ := value?_op_eq_some.1 value
  simp only [operate, Option.ite_none_right_eq_some, Option.some.injEq, Value.bool.injEq]
    at operation
  obtain ⟨bools, rfl⟩ := operation
  have truth := IsTruth.and (truths_of_values operands values bools)
  rwa [List.all_map] at truth

theorem or_sound {b : Bool}
    (operands : List.Forall₂ (fun e f => ∀ c, J.value? e = some (.bool c) → IsTruth I f c) es fs)
    (value : J.value? (.op .or es) = some (.bool b)) : IsTruth I (.or fs) b := by
  obtain ⟨vs, values, operation⟩ := value?_op_eq_some.1 value
  simp only [operate, Option.ite_none_right_eq_some, Option.some.injEq, Value.bool.injEq]
    at operation
  obtain ⟨bools, rfl⟩ := operation
  have truth := IsTruth.or (truths_of_values operands values bools)
  rwa [List.any_map] at truth

end Truths

theorem formulaCases_sound (arith : I.Arithmetical) :
    FormulaCases fun e f => ∀ b, I.value? e = some (.bool b) → IsTruth I f b where
  name x b value := .prop (isAtom_symbol value)
  const c b value := by
    cases value
    exact ⟨trivial, trivial, trivial, Iff.rfl⟩
  not operand b value := by
    obtain ⟨c, known, same⟩ := value?_not_eq_some.1 value
    cases same
    exact (operand c known).not
  access access _ b value :=
    .prop (isAtom_of_access (access.imp fun _ _ _ h _ known => term_sound arith known h) value)
  and operands b value := and_sound operands value
  or operands b value := or_sound operands value
  equality isEq shapes left right b value := equality_sound isEq shapes left right value
  comparison rel left right b value := by
    obtain ⟨vs, values, operation⟩ := value?_op_eq_some.1 value
    obtain ⟨v, w, ha, hb, rfl⟩ := values?_pair.1 values
    exact ofComparison_sound rel (term_sound arith ha left) (term_sound arith hb right) operation

/-- The formula of a tree is true exactly where the tree is. -/
theorem formula_sound (arith : I.Arithmetical) {e : Expr} {b : Bool} {f : Formula}
    (value : I.value? e = some (.bool b)) (h : (formula e).result = .ok f) : IsTruth I f b :=
  (formulaCases_sound arith).formula h b value

end Conversion
end PredicateStrength
