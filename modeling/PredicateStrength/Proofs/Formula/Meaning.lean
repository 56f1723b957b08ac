import Mathlib
import PredicateStrength.Proofs.Expr.Canonical
import PredicateStrength.Proofs.Formula.Truth

/-!
# The meaning of atoms

An interpretation by integers is a reference for a domain if its operators are those of integers,
numerals denote their value, and in the unsigned domain nothing that is read is negative. It gives
every atom a meaning: to a name and an application what stands at their place, to a quotient and a
remainder the value of the division, to a kept tree its value.

Main statement: the valuation of a reference is admissible (`Interp.Reference.admissible`).
-/
namespace PredicateStrength

namespace Interp

/-- The operators are those of integers: `/` and `%` round toward zero, with `x / 0 = 0` and
`x % 0 = x`, and `& | ^` work on two's complement. Numerals without a readable value denote some
natural number. -/
structure Reference (I : Interp Int) (d : Domain) : Prop extends I.Lawful where
  literal : ∀ digits q n, Numeral.value? digits = some q → I.literal? digits = some n → q = n
  literal_nonneg : ∀ digits n, I.literal? digits = some n → 0 ≤ n
  div : ∀ m n, I.arith .div m n = m.tdiv n
  mod : ∀ m n, I.arith .mod m n = m.tmod n
  pow : ∀ (m : Int) (n : Nat), I.arith .pow m n = m ^ n
  bitAnd : ∀ m n, I.arith .bitAnd m n = Int.land m n
  bitOr : ∀ m n, I.arith .bitOr m n = Int.lor m n
  bitXor : ∀ m n, I.arith .bitXor m n = Int.xor m n
  read_nonneg : d = .unsigned → ∀ p n, I.read p = .num n → 0 ≤ n

/-- The operators and the readable numerals are those of integers, as for a reference; what is
read may be negative. -/
structure Arithmetical (I : Interp Int) : Prop where
  literal : ∀ digits q n, Numeral.value? digits = some q → I.literal? digits = some n → q = n
  div : ∀ m n, I.arith .div m n = m.tdiv n
  mod : ∀ m n, I.arith .mod m n = m.tmod n
  pow : ∀ (m : Int) (n : Nat), I.arith .pow m n = m ^ n
  bitAnd : ∀ m n, I.arith .bitAnd m n = Int.land m n
  bitOr : ∀ m n, I.arith .bitOr m n = Int.lor m n
  bitXor : ∀ m n, I.arith .bitXor m n = Int.xor m n

theorem Reference.arithmetical {I : Interp Int} {d : Domain} (ref : I.Reference d) :
    I.Arithmetical where
  literal := ref.literal
  div := ref.div
  mod := ref.mod
  pow := ref.pow
  bitAnd := ref.bitAnd
  bitOr := ref.bitOr
  bitXor := ref.bitXor

/-- The operators are those of integers, and nothing that is read and no numeral is negative. -/
structure Unsigned (I : Interp Int) : Prop extends I.Arithmetical where
  literal_nonneg : ∀ digits n, I.literal? digits = some n → 0 ≤ n
  read_nonneg : ∀ p n, I.read p = .num n → 0 ≤ n

theorem Reference.unsigned {I : Interp Int} (ref : I.Reference .unsigned) : I.Unsigned where
  toArithmetical := ref.arithmetical
  literal_nonneg := ref.literal_nonneg
  read_nonneg := ref.read_nonneg rfl

/-- What stands at an application of a head. -/
def application (I : Interp Int) : Head → List (Value Int) → Value Int
  | .function f, vs => (((Place.name f).call? I.idiom vs).map I.valueAt).getD (.num 0)
  | .index m, [k] => I.read (.index (.name m) k)
  | .indexField m field, [k] => I.read (.member (.index (.name m) k) field)
  | _, _ => .num 0

end Interp

/-- A polynomial with the meaning of each atom in its place. -/
abbrev Evaluated := List (List (Value Int × Nat) × Rat)

namespace Evaluated

def sum (ts : Evaluated) : Rat :=
  (ts.map fun t => t.2 * (((t.1.map fun f => f.1.number ^ f.2).prod : Int) : Rat)).sum

/-- The value of the polynomial, rounded down. -/
def integer (ts : Evaluated) : Int := ts.sum.floor

/-- The polynomial as an argument: a single atom keeps its sort. -/
def value (ts : Evaluated) : Value Int :=
  match ts with
  | [([(v, 1)], c)] => if c = 1 then v else .num (integer ts)
  | _ => .num (integer ts)

end Evaluated

mutual
/-- What an atom stands for. -/
def Atom.meaning (I : Interp Int) : Atom → Value Int
  | .symbol name => I.read (.name name)
  | .app head args => I.application head ((Poly.evaluateAll I args).map Evaluated.value)
  | .quot p q => .num ((p.evaluate I).integer.tdiv (q.evaluate I).integer)
  | .rem p q => .num ((p.evaluate I).integer.tmod (q.evaluate I).integer)
  | .verbatim e => (I.value? e).getD (.num 0)

def Factor.evaluate (I : Interp Int) : List Factor → List (Value Int × Nat)
  | [] => []
  | ⟨a, n⟩ :: fs => (a.meaning I, n) :: Factor.evaluate I fs

def Monomial.evaluate (I : Interp Int) : Monomial → List (Value Int × Nat)
  | ⟨fs⟩ => Factor.evaluate I fs

def Term.evaluate (I : Interp Int) : List Term → Evaluated
  | [] => []
  | ⟨m, c⟩ :: ts => (m.evaluate I, c) :: Term.evaluate I ts

def Poly.evaluate (I : Interp Int) : Poly → Evaluated
  | ⟨ts⟩ => Term.evaluate I ts

def Poly.evaluateAll (I : Interp Int) : List Poly → List Evaluated
  | [] => []
  | p :: ps => p.evaluate I :: Poly.evaluateAll I ps
end

/-- The truth values and numbers of atoms. -/
def Interp.valuation (I : Interp Int) : Valuation where
  truth a := (a.meaning I).truth
  number a := (a.meaning I).number

variable {I : Interp Int}

theorem Factor.evaluate_eq_map (fs : List Factor) :
    Factor.evaluate I fs = fs.map fun f => (f.atom.meaning I, f.exponent) := by
  induction fs with
  | nil => rfl
  | cons f fs ih =>
    obtain ⟨a, n⟩ := f
    rw [Factor.evaluate, ih, List.map_cons]

theorem Poly.sum_evaluate (p : Poly) : (p.evaluate I).sum = I.valuation.value p := by
  obtain ⟨ts⟩ := p
  show (Term.evaluate I ts).sum = Term.sum I.valuation.number ts
  induction ts with
  | nil => rfl
  | cons t ts ih =>
    obtain ⟨⟨fs⟩, c⟩ := t
    rw [Evaluated.sum] at ih ⊢
    rw [Term.evaluate, List.map_cons, List.sum_cons, ih, Term.sum_cons, Monomial.evaluate,
      Factor.evaluate_eq_map, List.map_map]
    rfl

/-- A polynomial with an integer value evaluates to it. -/
theorem Poly.integer_evaluate {p : Poly} {n : Int} (h : I.valuation.value p = n) :
    (p.evaluate I).integer = n := by
  rw [Evaluated.integer, sum_evaluate, h, Rat.floor_intCast]

theorem Poly.value_evaluate_ofAtom (a : Atom) : ((ofAtom a).evaluate I).value = a.meaning I := rfl

theorem Poly.eq_ofAtom_of_evaluate {p : Poly} {v : Value Int}
    (h : p.evaluate I = [([(v, 1)], 1)]) : ∃ a, p = ofAtom a := by
  match p, h with
  | ⟨[]⟩, h => cases h
  | ⟨⟨_, _⟩ :: ⟨_, _⟩ :: _⟩, h => simp [evaluate, Term.evaluate] at h
  | ⟨[⟨⟨fs⟩, c⟩]⟩, h =>
    simp only [evaluate, Term.evaluate, Monomial.evaluate, Factor.evaluate_eq_map, List.cons.injEq,
      Prod.mk.injEq, List.map_eq_singleton_iff, and_true] at h
    obtain ⟨⟨⟨a, n⟩, rfl, -, rfl⟩, rfl⟩ := h
    exact ⟨a, rfl⟩

/-- A polynomial evaluates to its value rounded down, if it is no atom that stands for a truth
value. -/
theorem Poly.value_evaluate {p : Poly} (single : ∀ a, p = ofAtom a → (a.meaning I).isNum = true) :
    (p.evaluate I).value = .num (I.valuation.value p).floor := by
  by_cases atom : ∃ a, p = ofAtom a
  · obtain ⟨a, rfl⟩ := atom
    obtain ⟨n, number⟩ := Value.isNum_iff_exists.1 (single a rfl)
    have value : I.valuation.number a = n := by
      show (a.meaning I).number = n
      rw [number]
      rfl
    rw [value_evaluate_ofAtom, number, Valuation.value, value_ofAtom, value, Rat.floor_intCast]
  · have integer : Value.num (p.evaluate I).integer = .num (I.valuation.value p).floor := by
      rw [Evaluated.integer, sum_evaluate]
    unfold Evaluated.value
    split
    · next v c evaluated =>
      split
      · next one =>
        subst one
        exact absurd (eq_ofAtom_of_evaluate evaluated) atom
      · exact integer
    · exact integer

namespace Interp

theorem number_nonneg_of_bool (b : Bool) : 0 ≤ (Value.bool b : Value Int).number := by
  cases b <;> decide

theorem Arithmetical.arith_nonneg (arith : I.Arithmetical) {o : Operator} (free : o.isFree = true)
    {x y : Int} (hx : 0 ≤ x) (hy : 0 ≤ y) : 0 ≤ I.arith o x y := by
  obtain ⟨m, rfl⟩ := Int.eq_ofNat_of_zero_le hx
  obtain ⟨n, rfl⟩ := Int.eq_ofNat_of_zero_le hy
  cases o <;> cases free
  case div => exact arith.div m n ▸ Int.tdiv_nonneg hx hy
  case mod => exact arith.mod m n ▸ Int.tmod_nonneg n hx
  case pow => exact arith.pow m n ▸ pow_nonneg hx n
  case bitAnd => exact arith.bitAnd m n ▸ Int.natCast_nonneg (m &&& n)
  case bitOr => exact arith.bitOr m n ▸ Int.natCast_nonneg (m ||| n)
  case bitXor => exact arith.bitXor m n ▸ Int.natCast_nonneg (m ^^^ n)

/-- An operation other than subtraction does not leave the numbers from zero on. -/
theorem Arithmetical.number_operate (arith : I.Arithmetical) {o : Operator} {vs : List (Value Int)}
    {v : Value Int} (h : I.operate o vs = some v) (sub : o ≠ .sub)
    (nonneg : ∀ w ∈ vs, 0 ≤ w.number) : 0 ≤ v.number := by
  by_cases bool : v.isBool = true
  · obtain ⟨b, rfl⟩ := Value.isBool_iff_exists.1 bool
    exact number_nonneg_of_bool b
  by_cases free : o.isFree = true
  · obtain ⟨x, y, rfl, rfl⟩ := operate_free free h
    exact arith.arith_nonneg free (nonneg (.num x) (by simp)) (nonneg (.num y) (by simp))
  have numbers : ∀ x ∈ vs.map Value.number, 0 ≤ x := by simpa using nonneg
  have sort := isBool_operate h
  cases o <;> simp [Operator.isFree, Operator.isRelational, Operator.isLogical, bool] at free sort sub
  case add =>
    simp only [operate, Option.ite_none_right_eq_some, Option.some.injEq] at h
    obtain ⟨-, rfl⟩ := h
    exact List.sum_nonneg numbers
  case mul =>
    simp only [operate, Option.ite_none_right_eq_some, Option.some.injEq] at h
    obtain ⟨-, rfl⟩ := h
    exact List.prod_nonneg numbers

namespace Unsigned

theorem number_read (unsigned : I.Unsigned) (p : Place Int) : 0 ≤ (I.read p).number := by
  cases h : I.read p with
  | bool b => exact number_nonneg_of_bool b
  | num n => exact unsigned.read_nonneg p n h

/-- What an idiom stands for is not negative either. -/
theorem number_idiom (unsigned : I.Unsigned) {f : String} {p : Place Int}
    (h : I.idiom f = some (some p)) : 0 ≤ (I.valueAt p).number := by
  obtain ⟨t, entry, -⟩ := Option.map_eq_some_iff.1 h
  obtain ⟨before, after, table, -⟩ := List.lookup_eq_some_iff.1 entry
  have known : (f, t) ∈ Canonical.localIdioms := by simp [table]
  rw [idiom_of_lookup entry, Option.some.injEq] at h
  simp only [Canonical.localIdioms, List.mem_cons, Prod.mk.injEq, List.not_mem_nil,
    or_false] at known
  rcases known with ⟨-, rfl⟩ | ⟨-, rfl⟩ | ⟨-, rfl⟩
  · obtain ⟨b, rfl⟩ := place?_of_isBoolean rfl h
    exact number_nonneg_of_bool b
  · obtain ⟨b, rfl⟩ := place?_of_isBoolean rfl h
    exact number_nonneg_of_bool b
  · cases h
    exact unsigned.number_read _

theorem number_call? (unsigned : I.Unsigned) {p q : Place Int} {args : List (Value Int)}
    (h : p.call? I.idiom args = some q) : 0 ≤ (I.valueAt q).number := by
  unfold Place.call? at h
  split at h
  · cases h
  · next f =>
    cases entry : I.idiom f with
    | none =>
      rw [entry, Option.getD_none, Option.some.injEq] at h
      exact h ▸ unsigned.number_read _
    | some place =>
      rw [entry, Option.getD_some] at h
      exact unsigned.number_idiom (h ▸ entry)
  · cases h
    exact unsigned.number_read _

theorem number_application (unsigned : I.Unsigned) (head : Head) (vs : List (Value Int)) :
    0 ≤ (I.application head vs).number := by
  unfold application
  split
  · next f =>
    cases call : (Place.name f).call? I.idiom vs with
    | none => exact le_refl _
    | some q => exact unsigned.number_call? call
  · exact unsigned.number_read _
  · exact unsigned.number_read _
  · exact le_refl _

mutual
theorem number_of_not_mayBeNegative (unsigned : I.Unsigned) : ∀ {e : Expr} {v : Value Int},
    e.mayBeNegative = false → I.value? e = some v → 0 ≤ v.number
  | .ident name, v, _, value => by
    cases value
    exact unsigned.number_read _
  | .num digits, v, _, value => by
    obtain ⟨p, place, rfl⟩ := Option.map_eq_some_iff.1 value
    obtain ⟨n, literal, rfl⟩ := Option.map_eq_some_iff.1 place
    exact unsigned.literal_nonneg digits n literal
  | .bool b, v, _, value => by
    cases value
    exact number_nonneg_of_bool b
  | .not e, v, _, value => by
    obtain ⟨b, -, rfl⟩ := value?_not_eq_some.1 value
    exact number_nonneg_of_bool _
  | .neg _, _, h, _ => by cases h
  | .op o args, v, h, value => by
    obtain ⟨vs, values, operation⟩ := value?_op_eq_some.1 value
    by_cases bool : v.isBool = true
    · obtain ⟨b, rfl⟩ := Value.isBool_iff_exists.1 bool
      exact number_nonneg_of_bool b
    rw [isBool_operate operation, Bool.or_eq_true, not_or] at bool
    have sub : o ≠ .sub := by
      rintro rfl
      cases h
    have args : Expr.anyMayBeNegative args = false := by
      rw [Expr.mayBeNegative] at h
      · simpa [bool.1, bool.2] using h
      · exact fun same => sub same
    exact unsigned.toArithmetical.number_operate operation sub
      (numbers_of_not_anyMayBeNegative unsigned args values)
  | .call f args, v, _, value => by
    obtain ⟨p, place, rfl⟩ := Option.map_eq_some_iff.1 value
    obtain ⟨q, -, rest⟩ := Option.bind_eq_some_iff.1 place
    obtain ⟨vs, -, call⟩ := Option.bind_eq_some_iff.1 rest
    exact unsigned.number_call? call
  | .index base key, v, _, value => by
    obtain ⟨p, place, rfl⟩ := Option.map_eq_some_iff.1 value
    obtain ⟨q, -, rest⟩ := Option.bind_eq_some_iff.1 place
    obtain ⟨k, -, index⟩ := Option.bind_eq_some_iff.1 rest
    rw [(Place.index?_eq_some.1 index).2]
    exact unsigned.number_read _
  | .member base field, v, _, value => by
    obtain ⟨p, place, rfl⟩ := Option.map_eq_some_iff.1 value
    obtain ⟨q, -, member⟩ := Option.bind_eq_some_iff.1 place
    rw [(Place.member?_eq_some.1 member).2]
    exact unsigned.number_read _

theorem numbers_of_not_anyMayBeNegative (unsigned : I.Unsigned) : ∀ {es : List Expr}
    {vs : List (Value Int)}, Expr.anyMayBeNegative es = false → I.values? es = some vs →
      ∀ v ∈ vs, 0 ≤ v.number
  | [], vs, _, values => by
    cases values
    simp
  | e :: es, vs, any, values => by
    rw [Expr.anyMayBeNegative, Bool.or_eq_false_iff] at any
    rw [values?_cons] at values
    obtain ⟨v, value, rest⟩ := Option.bind_eq_some_iff.1 values
    obtain ⟨ws, later, rfl⟩ := Option.map_eq_some_iff.1 rest
    exact List.forall_mem_cons.2 ⟨number_of_not_mayBeNegative unsigned any.1 value,
      numbers_of_not_anyMayBeNegative unsigned any.2 later⟩
end

end Unsigned

/-- The valuation of a reference is admissible. -/
theorem Reference.admissible {d : Domain} (ref : I.Reference d) : I.valuation.Admissible d where
  quot p q m n hp hq := by
    show ((p.evaluate I).integer.tdiv (q.evaluate I).integer : Int) = m.tdiv n
    rw [Poly.integer_evaluate hp, Poly.integer_evaluate hq]
  rem p q m n hp hq := by
    show ((p.evaluate I).integer.tmod (q.evaluate I).integer : Int) = m.tmod n
    rw [Poly.integer_evaluate hp, Poly.integer_evaluate hq]
  symbol := by
    rintro rfl name
    exact ref.unsigned.number_read _
  app := by
    rintro rfl head args
    exact ref.unsigned.number_application head _
  verbatim := by
    rintro rfl e nonneg
    show 0 ≤ ((I.value? e).getD (.num 0)).number
    cases value : I.value? e with
    | none => exact le_refl _
    | some v => exact ref.unsigned.number_of_not_mayBeNegative nonneg value

/-- The operators of integers and the exact numerals, with whatever is read at each place. -/
def standard (read : Place Int → Value Int) : Interp Int where
  read := read
  literal? digits := (Numeral.value? digits).bind fun q =>
    if 0 ≤ q ∧ q.den = 1 then some q.num else none
  arith
    | .div, m, n => m.tdiv n
    | .mod, m, n => m.tmod n
    | .pow, m, n => m ^ n.toNat
    | .bitAnd, m, n => Int.land m n
    | .bitOr, m, n => Int.lor m n
    | .bitXor, m, n => Int.xor m n
    | _, _, _ => 0

theorem literal?_standard {read : Place Int → Value Int} {digits : String} {n : Int} :
    (standard read).literal? digits = some n ↔ Numeral.value? digits = some (n : Rat) ∧ 0 ≤ n := by
  constructor
  · intro literal
    obtain ⟨q, value, kept⟩ := Option.bind_eq_some_iff.1 literal
    split at kept
    · next natural =>
      cases kept
      have whole : (q.num : Rat) = q := (Rat.den_eq_one_iff q).1 natural.2
      rw [value, whole]
      exact ⟨rfl, Rat.num_nonneg.2 natural.1⟩
    · cases kept
  · rintro ⟨value, nonneg⟩
    refine Option.bind_eq_some_iff.2 ⟨n, value, ?_⟩
    rw [if_pos ⟨by exact_mod_cast nonneg, Rat.den_intCast n⟩, Rat.num_intCast]

theorem arithmetical_standard {read : Place Int → Value Int} : (standard read).Arithmetical where
  literal digits q n value literal :=
    Option.some.inj (value.symm.trans (literal?_standard.1 literal).1)
  div _ _ := rfl
  mod _ _ := rfl
  pow m n := by
    show m ^ (n : Int).toNat = m ^ n
    rw [Int.toNat_natCast]
  bitAnd _ _ := rfl
  bitOr _ _ := rfl
  bitXor _ _ := rfl

theorem reference_standard {d : Domain} {read : Place Int → Value Int}
    (flag : ∀ mask predicate, (mask, predicate) ∈ Canonical.flagIdioms →
      ∀ m, read (.name mask) = .num m → ∀ x,
        read (.call (.name predicate) [.num x]) = .bool (Int.land x m ≠ 0))
    (nonneg : d = .unsigned → ∀ p n, read p = .num n → 0 ≤ n) : (standard read).Reference d where
  zero digits x value literal := by
    have same := (literal?_standard.1 literal).1.symm.trans value
    exact_mod_cast Option.some.inj same
  flag mask predicate mem m value x := by
    have test := flag mask predicate mem m value x
    have comm : Int.land m x = Int.land x m := by
      cases m <;> cases x <;> simp [Int.land, Nat.land_comm, Nat.lor_comm]
    exact ⟨test, by rw [show (standard read).arith .bitAnd m x = _ from comm]; exact test⟩
  literal := arithmetical_standard.literal
  literal_nonneg digits n literal := (literal?_standard.1 literal).2
  div := arithmetical_standard.div
  mod := arithmetical_standard.mod
  pow := arithmetical_standard.pow
  bitAnd := arithmetical_standard.bitAnd
  bitOr := arithmetical_standard.bitOr
  bitXor := arithmetical_standard.bitXor
  read_nonneg := nonneg

/-- Every name is `x`; a call with a number tells whether it shares a bit with `x`. -/
def uniform (x : Int) : Interp Int := standard fun
  | .call _ [.num y] => .bool (Int.land y x ≠ 0)
  | .call _ _ => .bool false
  | _ => .num x

theorem reference_uniform {x : Int} (hx : 0 ≤ x) (d : Domain) : (uniform x).Reference d := by
  refine reference_standard ?_ ?_
  · rintro mask predicate - m ⟨⟩ y
    rfl
  · intro _ p n value
    split at value <;> cases value
    exact hx

end Interp
end PredicateStrength
