import Mathlib
import PredicateStrength.Proofs.Comparison
import PredicateStrength.Proofs.Formula.Decimal

/-!
# Claims survive instantiation

A claim that one predicate implies another is about all values of the names, so it must not be
contradicted by a comparison of two instances, in which numerals stand in place of names. In an
instance more is computed: quotients and powers of numerals are numbers, while quotients and powers
of names are atoms. The two agree because a tree with a name replaced has the value that the tree
has where the name is read as the numeral.

This is claimed of predicates whose fractions stand outside of arguments, keys and `/ % ** & | ^`.
It does not hold of others: the quotient of a name by a fraction counts as an integer, the quotient
of a numeral by a fraction is exact.

Main statement: `Settings.claim_survives_instance`.
-/
namespace PredicateStrength

namespace Settings

variable {settings : Settings} {first second : String} {e₁ e₂ : Expr}

/-- Refuting one direction settles it for canonical trees with fractions. -/
theorem implies_of_refute_exact {solver : Solver} {I : Interp Int}
    (sound : solver.SoundAt settings.domain I) (ref : I.Reference settings.domain) {a b : Expr}
    (fits₁ : Conversion.Fits I a) (fits₂ : Conversion.Fits I b) {f g : Formula}
    (hf : a.toFormula.result = .ok f) (hg : b.toFormula.result = .ok g)
    (refuted : (settings.refute solver f g).value.isSome = true) : I.rational.Implies a b := by
  intro sat c value
  exact true_of_refute sound ref (Conversion.formula_exact ref.arithmetical fits₁ sat hf)
    (Conversion.formula_exact ref.arithmetical fits₂ value hg) refuted

/-- What refutation claims of two trees with fractions holds, if the solver is sound there. -/
theorem refutation_claims_exact {solver : Solver} {I : Interp Int}
    (sound : solver.SoundAt settings.domain I) (ref : I.Reference settings.domain)
    (read₁ : Expr.ofText (settings.expand first) = .ok e₁)
    (read₂ : Expr.ofText (settings.expand second) = .ok e₂) (fits₁ : Conversion.Fits I e₁)
    (fits₂ : Conversion.Fits I e₂) (truth₁ : ∃ c, I.rational.value? e₁ = some (.bool c))
    (truth₂ : ∃ c, I.rational.value? e₂ = some (.bool c)) :
    ((settings.compare (.refutation solver) first second).ClaimsForward →
        I.rational.Satisfies e₁ → I.rational.Satisfies e₂) ∧
      ((settings.compare (.refutation solver) first second).ClaimsBackward →
        I.rational.Satisfies e₂ → I.rational.Satisfies e₁) := by
  have fits₁ : Conversion.Fits I e₁.canonical := fits₁.canonical fun _ _ => trivial
  have fits₂ : Conversion.Fits I e₂.canonical := fits₂.canonical fun _ _ => trivial
  exact refutation_claims_of (Interp.lawful_rational ref.toLawful) read₁ read₂ truth₁ truth₂
    fun _ _ hf hg => ⟨implies_of_refute_exact sound ref fits₁ fits₂ hf hg,
      implies_of_refute_exact sound ref fits₂ fits₁ hg hf⟩

end Settings

namespace Expr

mutual
/-- The tree with numerals in place of some of its names. What is called or read from keeps its
name. -/
def instantiate (numerals : String → Option String) : Expr → Expr
  | .ident name => (numerals name).elim (.ident name) .num
  | .num digits => .num digits
  | .bool b => .bool b
  | .not e => .not (instantiate numerals e)
  | .neg e => .neg (instantiate numerals e)
  | .op o args => .op o (instantiateAll numerals args)
  | .call (.ident f) args => .call (.ident f) (instantiateAll numerals args)
  | .call callee args => .call (instantiate numerals callee) (instantiateAll numerals args)
  | .index (.ident m) key => .index (.ident m) (instantiate numerals key)
  | .index base key => .index (instantiate numerals base) (instantiate numerals key)
  | .member (.ident m) field => .member (.ident m) field
  | .member base field => .member (instantiate numerals base) field

/-- The trees with numerals in place of some of their names. -/
def instantiateAll (numerals : String → Option String) : List Expr → List Expr
  | [] => []
  | e :: es => instantiate numerals e :: instantiateAll numerals es
end

/-- What is called or read from keeps its name; inside of it names can be replaced. -/
def instantiateHead (numerals : String → Option String) : Expr → Expr
  | .ident name => .ident name
  | e => instantiate numerals e

variable {numerals : String → Option String}

theorem instantiate_call (callee : Expr) (args : List Expr) :
    instantiate numerals (.call callee args) =
      .call (instantiateHead numerals callee) (instantiateAll numerals args) := by
  cases callee <;> simp only [instantiate, instantiateHead]

theorem instantiate_index (base key : Expr) :
    instantiate numerals (.index base key) =
      .index (instantiateHead numerals base) (instantiate numerals key) := by
  cases base <;> simp only [instantiate, instantiateHead]

theorem instantiate_member (base : Expr) (field : String) :
    instantiate numerals (.member base field) = .member (instantiateHead numerals base) field := by
  cases base <;> simp only [instantiate, instantiateHead]

section Numerals

variable {Q : String → Prop}

theorem numerals_instantiateHead {e : Expr} (h : (instantiate numerals e).Numerals Q Q) :
    (instantiateHead numerals e).Numerals Q Q := by
  cases e with
  | ident name => trivial
  | _ => exact h

mutual
/-- Where the numerals for names fit anywhere, the others stay where they are. -/
theorem numerals_instantiate (known : ∀ name digits, numerals name = some digits → Q digits) :
    ∀ {e : Expr} {P : String → Prop}, (∀ d, Q d → P d) → e.Numerals Q P →
      (instantiate numerals e).Numerals Q P
  | .ident name, P, imp, _ => by
    rw [instantiate]
    cases found : numerals name with
    | none => trivial
    | some digits => exact imp digits (known name digits found)
  | .num digits, P, _, h => h
  | .bool b, P, _, _ => trivial
  | .not e, P, imp, h => by
    rw [instantiate, numerals_not]
    exact numerals_instantiate known imp (numerals_not.1 h)
  | .neg e, P, imp, h => by
    rw [instantiate, numerals_neg]
    exact numerals_instantiate known imp (numerals_neg.1 h)
  | .op o args, P, imp, h => by
    have wider : ∀ d, Q d → (if o.isFree then Q else P) d := by
      split
      · exact fun _ => id
      · exact imp
    rw [instantiate, numerals_op]
    exact numerals_instantiateAll known wider (numerals_op.1 h)
  | .call f args, P, _, h => by
    obtain ⟨callee, rest⟩ := numerals_call.1 h
    rw [instantiate_call, numerals_call]
    exact ⟨numerals_instantiateHead (numerals_instantiate known (fun _ => id) callee),
      numerals_instantiateAll known (fun _ => id) rest⟩
  | .index base key, P, _, h => by
    obtain ⟨inside, inside'⟩ := numerals_index.1 h
    rw [instantiate_index, numerals_index]
    exact ⟨numerals_instantiateHead (numerals_instantiate known (fun _ => id) inside),
      numerals_instantiate known (fun _ => id) inside'⟩
  | .member base field, P, _, h => by
    rw [instantiate_member, numerals_member]
    exact numerals_instantiateHead
      (numerals_instantiate known (fun _ => id) (numerals_member.1 h))

theorem numerals_instantiateAll (known : ∀ name digits, numerals name = some digits → Q digits) :
    ∀ {es : List Expr} {P : String → Prop}, (∀ d, Q d → P d) → (∀ e ∈ es, e.Numerals Q P) →
      ∀ e ∈ instantiateAll numerals es, e.Numerals Q P
  | [], P, _, _ => by simp [instantiateAll]
  | e :: es, P, imp, h => by
    obtain ⟨first, rest⟩ := List.forall_mem_cons.1 h
    rw [instantiateAll, List.forall_mem_cons]
    exact ⟨numerals_instantiate known imp first, numerals_instantiateAll known imp rest⟩
end

end Numerals
end Expr

namespace Interp

variable {K : Type} {I : Interp K}

/-- What depends only on the value at a place is the same at places of the same value. -/
theorem bind_eq_of_value {p q : Option (Place K)} (same : p.map I.valueAt = q.map I.valueAt)
    {β : Type} (f : Value K → Option β) :
    (p.bind fun p => f (I.valueAt p)) = q.bind fun q => f (I.valueAt q) := by
  have through : ∀ r : Option (Place K),
      (r.bind fun r => f (I.valueAt r)) = (r.map I.valueAt).bind f := by
    rintro (_ | r) <;> rfl
  rw [through, through, same]

variable [CommRing K] [LinearOrder K] {numerals : String → Option String}
  {idiom : String → Option (Option (Place K))}

/-- A name is read as the numeral that stands in its place. -/
def Reads (I : Interp K) (numerals : String → Option String) : Prop :=
  ∀ name digits, numerals name = some digits →
    ∃ x, I.literal? digits = some x ∧ I.read (.name name) = .num x

/-- The instance of a tree has the place of the tree, or is the numeral as which a name is read. -/
def Instantiated (I : Interp K) (numerals : String → Option String)
    (idiom : String → Option (Option (Place K))) (e : Expr) : Prop :=
  I.placeWith idiom (e.instantiate numerals) = I.placeWith idiom e ∨
    ∃ name x, e = .ident name ∧ I.read (.name name) = .num x ∧
      I.placeWith idiom (e.instantiate numerals) = some (.value (.num x))

theorem Instantiated.value {e : Expr} (h : I.Instantiated numerals idiom e) :
    (I.placeWith idiom (e.instantiate numerals)).map I.valueAt =
      (I.placeWith idiom e).map I.valueAt := by
  rcases h with same | ⟨name, x, rfl, read, place⟩
  · rw [same]
  · rw [place, placeWith, Option.map_some, Option.map_some, valueAt_value]
    exact congrArg some read.symm

theorem Instantiated.head {e : Expr} (h : I.Instantiated numerals idiom e) :
    I.placeWith idiom (e.instantiateHead numerals) = I.placeWith idiom e := by
  cases e with
  | ident name => rfl
  | _ =>
    rcases h with same | ⟨name, x, other, -⟩
    · exact same
    · cases other

mutual
theorem instantiated (reads : I.Reads numerals) : ∀ e : Expr, I.Instantiated numerals idiom e
  | .ident name => by
    cases found : numerals name with
    | none =>
      left
      rw [Expr.instantiate, found]
      rfl
    | some digits =>
      obtain ⟨x, literal, read⟩ := reads name digits found
      right
      refine ⟨name, x, rfl, read, ?_⟩
      rw [Expr.instantiate, found]
      show (I.literal? digits).map (fun x => Place.value (.num x)) = _
      rw [literal]
      rfl
  | .num digits => .inl rfl
  | .bool b => .inl rfl
  | .not e => by
    left
    rw [Expr.instantiate, placeWith, placeWith]
    exact bind_eq_of_value (instantiated reads e).value fun v => v.not?.map Place.value
  | .neg e => by
    left
    rw [Expr.instantiate, placeWith, placeWith]
    exact bind_eq_of_value (instantiated reads e).value fun v => v.neg?.map Place.value
  | .op o args => by
    left
    rw [Expr.instantiate, placeWith, placeWith, instantiatedAll reads args]
  | .call callee args => by
    left
    rw [Expr.instantiate_call, placeWith, placeWith, (instantiated reads callee).head,
      instantiatedAll reads args]
  | .index base key => by
    left
    rw [Expr.instantiate_index, placeWith, placeWith, (instantiated reads base).head]
    refine congrArg (Option.bind _) (funext fun p => ?_)
    exact bind_eq_of_value (instantiated reads key).value p.index?
  | .member base field => by
    left
    rw [Expr.instantiate_member, placeWith, placeWith, (instantiated reads base).head]

theorem instantiatedAll (reads : I.Reads numerals) : ∀ es : List Expr,
    I.valuesWith idiom (Expr.instantiateAll numerals es) = I.valuesWith idiom es
  | [] => rfl
  | e :: es => by
    rw [Expr.instantiateAll, valuesWith, valuesWith, instantiatedAll reads es]
    exact bind_eq_of_value (instantiated reads e).value fun v =>
      (I.valuesWith idiom es).map fun vs => v :: vs
end

/-- The instance has the value that the tree has where the names are read as the numerals. -/
theorem value?_instantiate (reads : I.Reads numerals) (e : Expr) :
    I.value? (e.instantiate numerals) = I.value? e :=
  (instantiated reads e).value

end Interp

/-- The numeral denotes a natural number, if it denotes anything. -/
def Numeral.Whole (digits : String) : Prop :=
  ∀ q, Numeral.value? digits = some q → ∃ n : Nat, q = n

/-- The masks of flags are numbers only where the predicates that test them are truth values. -/
def FlagsSorted (sorts : Path → ValueSort) : Prop :=
  ∀ mask predicate, (mask, predicate) ∈ Canonical.flagIdioms → sorts (.name mask) = .integer →
    sorts (.call (.name predicate) [.integer]) = .boolean

namespace Interp

/-- Zero or false, as the sort wants it. -/
def blank : ValueSort → Value Int
  | .integer => .num 0
  | .boolean => .bool false

/-- The number for a name, and where there is none a value of the sort of the name. -/
def named (numbers : String → Option Int) (sorts : Path → ValueSort) (name : String) : Value Int :=
  (numbers name).elim (blank (sorts (.name name))) .num

/-- Every name is its number, a flag predicate tells whether its mask leaves a bit, and whatever else
is read is zero or false. -/
def assigned (numbers : String → Option Int) (sorts : Path → ValueSort) : Place Int → Value Int
  | .name name => named numbers sorts name
  | .call (.name f) [.num x] =>
    match Canonical.flagIdioms.find? fun entry => entry.2 = f with
    | some (mask, _) =>
      match named numbers sorts mask with
      | .num m => .bool (Int.land x m ≠ 0)
      | .bool _ => blank (sorts (.call (.name f) [.integer]))
    | none => blank (sorts (.call (.name f) [.integer]))
  | p => blank (sorts p.path)

/-- The operators of integers and the exact numerals; a numeral that cannot be read is zero. -/
def total (read : Place Int → Value Int) : Interp Int where
  read := read
  literal? digits := if Numeral.value? digits = none then some 0 else (standard read).literal? digits
  arith := (standard read).arith

variable {numbers : String → Option Int} {sorts : Path → ValueSort}

theorem sort_blank (s : ValueSort) : (blank s).sort = s := by cases s <;> rfl

theorem sort_named (integers : ∀ name n, numbers name = some n → sorts (.name name) = .integer)
    (name : String) : (named numbers sorts name).sort = sorts (.name name) := by
  rw [named]
  cases found : numbers name with
  | none => exact sort_blank _
  | some n => exact (integers name n found).symm

theorem sort_assigned (integers : ∀ name n, numbers name = some n → sorts (.name name) = .integer)
    (flags : FlagsSorted sorts) (p : Place Int) :
    (assigned numbers sorts p).sort = sorts p.path := by
  unfold assigned
  split
  · exact sort_named integers _
  · next f x =>
    split
    · next mask predicate found =>
      have entry := List.mem_of_find?_eq_some found
      have same : predicate = f := by simpa using List.find?_some found
      subst same
      split
      · next number =>
        have sort := sort_named integers mask
        rw [number] at sort
        exact (flags mask predicate entry sort.symm).symm
      · exact sort_blank _
    · exact sort_blank _
  · exact sort_blank _

theorem nonneg_assigned (natural : ∀ name n, numbers name = some n → 0 ≤ n) {p : Place Int}
    {n : Int} (read : assigned numbers sorts p = .num n) : 0 ≤ n := by
  have blank_nonneg : ∀ s, blank s = .num n → 0 ≤ n := by
    rintro (_ | _) ⟨⟩
    exact le_refl _
  unfold assigned at read
  split at read
  · next name =>
    rw [named] at read
    cases found : numbers name with
    | none =>
      rw [found] at read
      exact blank_nonneg _ read
    | some m =>
      rw [found] at read
      cases read
      exact natural name _ found
  · split at read
    · split at read
      · cases read
      · exact blank_nonneg _ read
    · exact blank_nonneg _ read
  · exact blank_nonneg _ read

theorem flag_assigned (mask predicate : String) (entry : (mask, predicate) ∈ Canonical.flagIdioms)
    (m : Int) (read : assigned numbers sorts (.name mask) = .num m) (x : Int) :
    assigned numbers sorts (.call (.name predicate) [.num x]) = .bool (Int.land x m ≠ 0) := by
  have number : named numbers sorts mask = .num m := read
  have found : Canonical.flagIdioms.find? (fun entry => entry.2 = predicate) =
      some (mask, predicate) := by
    simp only [Canonical.flagIdioms, List.mem_singleton, Prod.mk.injEq] at entry
    obtain ⟨rfl, rfl⟩ := entry
    rfl
  rw [assigned, found]
  dsimp only
  rw [number]

theorem literal?_total {read : Place Int → Value Int} {digits : String} {n : Int}
    (literal : (total read).literal? digits = some n) :
    (Numeral.value? digits = none ∧ n = 0) ∨ (standard read).literal? digits = some n := by
  rw [total] at literal
  dsimp only at literal
  split at literal
  · next unreadable => exact .inl ⟨unreadable, (Option.some.inj literal).symm⟩
  · exact .inr literal

/-- With a value for every numeral the interpretation is still a reference. -/
theorem reference_total {d : Domain} {read : Place Int → Value Int}
    (ref : (standard read).Reference d) : (total read).Reference d where
  zero digits x value literal := by
    rcases literal?_total literal with ⟨-, zero⟩ | exact
    · exact zero
    · exact ref.zero digits x value exact
  flag := ref.flag
  literal digits q n value literal := by
    rcases literal?_total literal with ⟨unreadable, -⟩ | exact
    · cases unreadable.symm.trans value
    · exact ref.literal digits q n value exact
  literal_nonneg digits n literal := by
    rcases literal?_total literal with ⟨-, zero⟩ | exact
    · exact zero.ge
    · exact ref.literal_nonneg digits n exact
  div := ref.div
  mod := ref.mod
  pow := ref.pow
  bitAnd := ref.bitAnd
  bitOr := ref.bitOr
  bitXor := ref.bitXor
  read_nonneg := ref.read_nonneg

/-- A numeral that denotes no fraction denotes the same integer everywhere. -/
theorem agrees_total {read : Place Int → Value Int} {digits : String}
    (whole : Numeral.Whole digits) : (total read).Agrees digits := by
  rw [Agrees, literal?_rational]
  cases denoted : Numeral.value? digits with
  | none => rw [Option.none_or]
  | some q =>
    obtain ⟨n, rfl⟩ := whole q denoted
    have exact : (standard read).literal? digits = some (n : Int) :=
      literal?_standard.2 ⟨by exact_mod_cast denoted, Int.natCast_nonneg n⟩
    have literal : (total read).literal? digits = some (n : Int) := by
      rw [total]
      dsimp only
      rw [if_neg (by simp [denoted]), exact]
    rw [literal]
    simp

/-- Well-sorted names can be read as the numerals that stand in their place. -/
theorem exists_reading (d : Domain) {numerals : String → Option String}
    (natural : ∀ name digits, numerals name = some digits →
      ∃ n : Nat, Numeral.value? digits = some (n : Rat))
    (integers : ∀ name digits, numerals name = some digits → sorts (.name name) = .integer)
    (flags : FlagsSorted sorts) :
    ∃ I : Interp Int, I.Reference d ∧ I.rational.Respects ⟨sorts, fun _ => true⟩ ∧
      I.rational.Reads numerals ∧ ∀ digits, Numeral.Whole digits → I.Agrees digits := by
  let numbers : String → Option Int := fun name =>
    ((numerals name).bind Numeral.value?).map Rat.num
  have known : ∀ name n, numbers name = some n → ∃ digits, numerals name = some digits ∧ 0 ≤ n := by
    intro name n number
    obtain ⟨q, denoted, rfl⟩ := Option.map_eq_some_iff.1 number
    obtain ⟨digits, found, value⟩ := Option.bind_eq_some_iff.1 denoted
    obtain ⟨k, exact⟩ := natural name digits found
    cases value.symm.trans exact
    exact ⟨digits, found, Int.natCast_nonneg k⟩
  have sorted : ∀ name n, numbers name = some n → sorts (.name name) = .integer := by
    intro name n number
    obtain ⟨digits, found, -⟩ := known name n number
    exact integers name digits found
  have nonneg : ∀ name n, numbers name = some n → 0 ≤ n := fun name n number =>
    (known name n number).elim fun _ h => h.2
  have ref : (standard (assigned numbers sorts)).Reference d :=
    reference_standard flag_assigned fun _ _ _ => nonneg_assigned nonneg
  refine ⟨total (assigned numbers sorts), reference_total ref, ?_, ?_, fun _ => agrees_total⟩
  · refine respects_rational (sort_assigned sorted flags) fun digits unreadable => ?_
    rw [total]
    simp [unreadable]
  · intro name digits found
    obtain ⟨n, denoted⟩ := natural name digits found
    refine ⟨n, by rw [literal?_rational, denoted, Option.some_or], ?_⟩
    have number : numbers name = some (n : Int) := by
      show ((numerals name).bind Numeral.value?).map Rat.num = _
      rw [found, Option.bind_some, denoted]
      rfl
    show (named numbers sorts name).cast = .num (n : Rat)
    rw [named, number]
    simp [Value.cast, Value.map]

end Interp

namespace Settings
open Interp

variable {settings : Settings} {first second third fourth top bottom : String} {e₁ e₂ : Expr}

/-- A claim between two predicates is never contradicted by an instance: no numerals in place of
names make the first equivalent to `true` and the second equivalent to `false`. -/
theorem claim_survives_instance (numerals : String → Option String)
    (natural : ∀ name digits, numerals name = some digits →
      ∃ n : Nat, Numeral.value? digits = some (n : Rat))
    (read₁ : Expr.ofText (settings.expand first) = .ok e₁)
    (read₂ : Expr.ofText (settings.expand second) = .ok e₂)
    (read₃ : Expr.ofText (settings.expand third) = .ok (e₁.instantiate numerals))
    (read₄ : Expr.ofText (settings.expand fourth) = .ok (e₂.instantiate numerals))
    (readTop : Expr.ofText (settings.expand top) = .ok (.bool true))
    (readBottom : Expr.ofText (settings.expand bottom) = .ok (.bool false))
    (whole₁ : e₁.Numerals Numeral.Whole fun _ => True)
    (whole₂ : e₂.Numerals Numeral.Whole fun _ => True) (sorts : Path → ValueSort)
    (sorted₁ : Signature.sort? ⟨sorts, fun _ => true⟩ e₁ = some .boolean)
    (sorted₂ : Signature.sort? ⟨sorts, fun _ => true⟩ e₂ = some .boolean)
    (integers : ∀ name digits, numerals name = some digits → sorts (.name name) = .integer)
    (flags : FlagsSorted sorts)
    (claim : (settings.compare (.refutation .elimination) first second).ClaimsForward) :
    ¬(settings.compare (.refutation .elimination) third top = .equivalent ∧
      settings.compare (.refutation .elimination) fourth bottom = .equivalent) := by
  rintro ⟨isTrue, isFalse⟩
  obtain ⟨I, ref, resp, reads, agrees⟩ :=
    exists_reading settings.domain natural integers flags
  have known : ∀ name digits, numerals name = some digits → I.Agrees digits := by
    intro name digits found
    obtain ⟨n, denoted⟩ := natural name digits found
    exact agrees digits fun q value => ⟨n, Option.some.inj (value.symm.trans denoted)⟩
  have fits₁ : Conversion.Fits I e₁ := whole₁.mono agrees fun _ => id
  have fits₂ : Conversion.Fits I e₂ := whole₂.mono agrees fun _ => id
  have fits₃ := Expr.numerals_instantiate known (fun _ _ => trivial) fits₁
  have fits₄ := Expr.numerals_instantiate known (fun _ _ => trivial) fits₂
  have truth₁ := resp.value?_bool sorted₁
  have truth₂ := resp.value?_bool sorted₂
  have same₁ := Interp.value?_instantiate reads e₁
  have same₂ := Interp.value?_instantiate reads e₂
  have sound := Solver.elimination_soundAt ref
  have first : I.rational.Satisfies (e₁.instantiate numerals) :=
    (refutation_claims_exact sound ref read₃ readTop fits₃ trivial (same₁ ▸ truth₁)
      ⟨true, rfl⟩).2 (.inr isTrue) rfl
  have second : I.rational.Satisfies e₂ :=
    (refutation_claims_exact sound ref read₁ read₂ fits₁ fits₂ truth₁ truth₂).1 claim
      (same₁.symm.trans first)
  have absurd : I.rational.Satisfies (.bool false) :=
    (refutation_claims_exact sound ref read₄ readBottom fits₄ trivial (same₂ ▸ truth₂)
      ⟨false, rfl⟩).1 (.inr isFalse) (same₂.trans second)
  cases absurd

/-- The numeral `7` in place of `x`. -/
def seven : String → Option String
  | "x" => some "7"
  | _ => none

set_option maxRecDepth 20000 in
theorem claim_survives_instance_seven :
    Settings.compare {} (.refutation .elimination) "x / 2 > 1.5" "x / 2 >= 1.25" = .equivalent ∧
      ¬(Settings.compare {} (.refutation .elimination) "7 / 2 > 1.5" "true" = .equivalent ∧
        Settings.compare {} (.refutation .elimination) "7 / 2 >= 1.25" "false" = .equivalent) := by
  have claim : Settings.compare {} (.refutation .elimination) "x / 2 > 1.5" "x / 2 >= 1.25" =
      .equivalent := by
    cbv
  have half : Expr.Numerals Numeral.Whole (fun _ => True) (.op .div [.ident "x", .num "2"]) := by
    refine ⟨trivial, fun q value => ⟨2, ?_⟩, trivial⟩
    cases (show Numeral.value? "2" = some 2 by cbv).symm.trans value
    rfl
  have natural : ∀ name digits, seven name = some digits →
      ∃ n : Nat, Numeral.value? digits = some (n : Rat) := by
    intro name digits found
    unfold seven at found
    split at found <;> cases found
    exact ⟨7, by cbv⟩
  have flags : FlagsSorted callsBoolean := fun _ _ _ _ => rfl
  have read₁ : Expr.ofText "x / 2 > 1.5" =
      .ok (.op .gt [.op .div [.ident "x", .num "2"], .num "1.5"]) := by
    cbv
  have read₂ : Expr.ofText "x / 2 >= 1.25" =
      .ok (.op .ge [.op .div [.ident "x", .num "2"], .num "1.25"]) := by
    cbv
  exact ⟨claim, claim_survives_instance seven natural read₁ read₂ (by cbv) (by cbv) (by cbv)
    (by cbv) ⟨half, trivial, trivial⟩ ⟨half, trivial, trivial⟩ callsBoolean rfl rfl
    (fun _ _ _ => rfl) flags (.inr claim)⟩

set_option maxRecDepth 20000 in
/-- A fraction as a divisor: at `1` the quotient is exact and not zero, while the quotient of a name
is an integer, and so at least `1` if it is not zero. -/
theorem claim_survives_instance_ne :
    ∃ e₁ e₂, Expr.ofText "x / 2.5 > 0" = .ok e₁ ∧ Expr.ofText "x / 2.5 >= 1" = .ok e₂ ∧
      Expr.ofText "1 / 2.5 > 0" = .ok (e₁.instantiate fun _ => some "1") ∧
      Expr.ofText "1 / 2.5 >= 1" = .ok (e₂.instantiate fun _ => some "1") ∧
      (Settings.compare {} (.refutation .elimination) "x / 2.5 > 0" "x / 2.5 >= 1").ClaimsForward ∧
      Settings.compare {} (.refutation .elimination) "1 / 2.5 > 0" "true" = .equivalent ∧
      Settings.compare {} (.refutation .elimination) "1 / 2.5 >= 1" "false" = .equivalent := by
  refine ⟨.op .gt [.op .div [.ident "x", .num "2.5"], .num "0"],
    .op .ge [.op .div [.ident "x", .num "2.5"], .num "1"], ?_, ?_, ?_, ?_, .inr ?_, ?_, ?_⟩ <;> cbv

end Settings
end PredicateStrength
