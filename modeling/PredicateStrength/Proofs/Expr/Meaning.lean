import Mathlib
import PredicateStrength.Error
import PredicateStrength.Expr.Canonical

/-!
# The meaning of trees

An interpretation says what stands at each place that a tree can name: a name, a call of a place
with argument values, an element of a place, a member of a place. So a call is a function of its
argument values, and `a[b](x)` calls whatever is called `a[b]`. A tree has a place if it names
one, and otherwise the value that it computes; idiom calls have the place of the tree they stand
for. A tree whose sorts do not fit has no meaning.

The arithmetic that the interpretation is free to choose is that of `/ % ** & | ^`, and the number
that a numeral denotes; sums, differences, products and comparisons are those of the ring.

Main statement: a tree that is well sorted has a value of its sort under every interpretation that
respects the sorts (`Interp.Respects.value?`).
-/
namespace PredicateStrength

variable {K : Type}

/-- A truth value or a number. -/
inductive Value (K : Type) where
  | bool (b : Bool)
  | num (x : K)

namespace Value

def sort : Value K → ValueSort
  | .bool _ => .boolean
  | .num _ => .integer

def isBool : Value K → Bool
  | .bool _ => true
  | .num _ => false

def isNum : Value K → Bool
  | .bool _ => false
  | .num _ => true

def truth : Value K → Bool
  | .bool b => b
  | .num _ => false

/-- The number; a truth value counts as `0` or `1`. -/
def number [Zero K] [One K] : Value K → K
  | .bool b => if b then 1 else 0
  | .num x => x

def not? : Value K → Option (Value K)
  | .bool b => some (.bool !b)
  | .num _ => none

def neg? [Neg K] : Value K → Option (Value K)
  | .bool _ => none
  | .num x => some (.num (-x))

theorem isBool_iff_exists {v : Value K} : v.isBool = true ↔ ∃ b, v = .bool b := by
  cases v <;> simp [isBool]

theorem isNum_iff_exists {v : Value K} : v.isNum = true ↔ ∃ x, v = .num x := by
  cases v <;> simp [isNum]

end Value

/-- What a tree names, or the value that it computes. -/
inductive Place (K : Type) where
  | value (v : Value K)
  | name (name : String)
  | call (callee : Place K) (args : List (Value K))
  | index (base : Place K) (key : Value K)
  | member (base : Place K) (field : String)

/-- What the names of trees mean. -/
structure Interp (K : Type) where
  /-- What stands at a place that is no computed value. -/
  read : Place K → Value K
  /-- The number that a numeral denotes. -/
  literal? : String → Option K
  /-- The operators `/ % ** & | ^`. -/
  arith : Operator → K → K → K

/-- `x o y`; any operator but the five named ones reads as `!=`. -/
def relate [LinearOrder K] (o : Operator) (x y : K) : Bool :=
  match o with
  | .lt => x < y
  | .le => x ≤ y
  | .gt => y < x
  | .ge => y ≤ x
  | .eq => x = y
  | _ => x ≠ y

theorem relate_mirrored [LinearOrder K] (o : Operator) (x y : K) :
    relate o.mirrored x y = relate o y x := by
  cases o <;> simp [relate, Operator.mirrored, eq_comm]

/-- The operators that an interpretation is free to choose. -/
def Operator.isFree : Operator → Bool
  | .div | .mod | .pow | .bitAnd | .bitOr | .bitXor => true
  | _ => false

namespace Place

/-- A truth value can be neither called nor indexed. -/
def isBase : Place K → Bool
  | .value (.bool _) => false
  | _ => true

/-- The place of a call; without arguments it can be an idiom. -/
def call? (idiom : String → Option (Option (Place K))) (p : Place K) (args : List (Value K)) :
    Option (Place K) :=
  match p, args with
  | .value (.bool _), _ => none
  | .name f, [] => (idiom f).getD (some (.call (.name f) []))
  | p, args => some (.call p args)

def index? (p : Place K) (key : Value K) : Option (Place K) :=
  if p.isBase then some (.index p key) else none

def member? (p : Place K) (field : String) : Option (Place K) :=
  if p.isBase then some (.member p field) else none

theorem call?_isBase {idiom : String → Option (Option (Place K))} {p q : Place K}
    {args : List (Value K)} (h : p.call? idiom args = some q) : p.isBase = true := by
  cases p with
  | value v => cases v <;> simp_all [call?, isBase]
  | _ => rfl

theorem index?_eq_some {p q : Place K} {key : Value K} :
    p.index? key = some q ↔ p.isBase = true ∧ q = .index p key := by
  by_cases base : p.isBase = true <;> simp [index?, base, eq_comm]

theorem member?_eq_some {p q : Place K} {field : String} :
    p.member? field = some q ↔ p.isBase = true ∧ q = .member p field := by
  by_cases base : p.isBase = true <;> simp [member?, base, eq_comm]

end Place

namespace Interp

variable (I : Interp K)

/-- The value of a place. -/
def valueAt : Place K → Value K
  | .value v => v
  | p => I.read p

@[simp] theorem valueAt_value (v : Value K) : I.valueAt (.value v) = v := rfl

variable [CommRing K] [LinearOrder K]

/-- The value of an operation, if the sorts of the operands fit. -/
def operate (o : Operator) (vs : List (Value K)) : Option (Value K) :=
  match o with
  | .and => if vs.all Value.isBool then some (.bool (vs.all Value.truth)) else none
  | .or => if vs.all Value.isBool then some (.bool (vs.any Value.truth)) else none
  | .add => if vs.all Value.isNum then some (.num (vs.map Value.number).sum) else none
  | .mul =>
    if vs.all Value.isNum && !vs.isEmpty then some (.num (vs.map Value.number).prod) else none
  | .eq | .ne | .lt | .le | .gt | .ge =>
    match vs with
    | [.num x, .num y] => some (.bool (relate o x y))
    | [.bool a, .bool b] =>
      match o with
      | .eq => some (.bool (a == b))
      | .ne => some (.bool (a != b))
      | _ => none
    | _ => none
  | .sub =>
    match vs with
    | [.num x, .num y] => some (.num (x - y))
    | _ => none
  | .div | .mod | .pow | .bitAnd | .bitOr | .bitXor =>
    match vs with
    | [.num x, .num y] => some (.num (I.arith o x y))
    | _ => none

mutual
/-- The place of a tree, where `idiom` is what calls of names without arguments stand for. -/
def placeWith (idiom : String → Option (Option (Place K))) : Expr → Option (Place K)
  | .ident name => some (.name name)
  | .num digits => (I.literal? digits).map fun x => .value (.num x)
  | .bool b => some (.value (.bool b))
  | .not e => (placeWith idiom e).bind fun p => (I.valueAt p).not?.map .value
  | .neg e => (placeWith idiom e).bind fun p => (I.valueAt p).neg?.map .value
  | .op o args => (valuesWith idiom args).bind fun vs => (I.operate o vs).map .value
  | .call f args =>
    (placeWith idiom f).bind fun p => (valuesWith idiom args).bind fun vs => p.call? idiom vs
  | .index base key =>
    (placeWith idiom base).bind fun p => (placeWith idiom key).bind fun k => p.index? (I.valueAt k)
  | .member base field => (placeWith idiom base).bind fun p => p.member? field

def valuesWith (idiom : String → Option (Option (Place K))) : List Expr → Option (List (Value K))
  | [] => some []
  | e :: es =>
    (placeWith idiom e).bind fun p => (valuesWith idiom es).map fun vs => I.valueAt p :: vs
end

/-- The place that an idiom call stands for. -/
def idiom (f : String) : Option (Option (Place K)) :=
  (Canonical.localIdioms.lookup f).map (I.placeWith fun _ => none)

/-- The place that the tree names, or the value that it computes. -/
def place? (e : Expr) : Option (Place K) := I.placeWith I.idiom e

/-- The value of a tree. -/
def value? (e : Expr) : Option (Value K) := (I.place? e).map I.valueAt

/-- The values of trees. -/
def values? (es : List Expr) : Option (List (Value K)) := I.valuesWith I.idiom es

/-- The predicate is true. -/
def Satisfies (e : Expr) : Prop := I.value? e = some (.bool true)

end Interp

/-- A place with the sorts of arguments and keys in place of their values. -/
inductive Path where
  | value (s : ValueSort)
  | name (name : String)
  | call (callee : Path) (args : List ValueSort)
  | index (base : Path) (key : ValueSort)
  | member (base : Path) (field : String)

/-- The path of a place. -/
def Place.path : Place K → Path
  | .value v => .value v.sort
  | .name n => .name n
  | .call p args => .call p.path (args.map Value.sort)
  | .index p key => .index p.path key.sort
  | .member p field => .member p.path field

/-- The sorts of what is read, and the numerals that are admitted. -/
structure Signature where
  read : Path → ValueSort
  admits : String → Bool

namespace Path

def isBase : Path → Bool
  | .value .boolean => false
  | _ => true

def call? (idiom : String → Option (Option Path)) (p : Path) (args : List ValueSort) :
    Option Path :=
  match p, args with
  | .value .boolean, _ => none
  | .name f, [] => (idiom f).getD (some (.call (.name f) []))
  | p, args => some (.call p args)

def index? (p : Path) (key : ValueSort) : Option Path :=
  if p.isBase then some (.index p key) else none

def member? (p : Path) (field : String) : Option Path :=
  if p.isBase then some (.member p field) else none

end Path

namespace Signature

variable (σ : Signature)

def sortAt : Path → ValueSort
  | .value s => s
  | p => σ.read p

/-- The sort of an operation on operands of these sorts. -/
def operate (o : Operator) (ss : List ValueSort) : Option ValueSort :=
  match o with
  | .and | .or => if ss.all (· = .boolean) then some .boolean else none
  | .add => if ss.all (· = .integer) then some .integer else none
  | .mul => if ss.all (· = .integer) && !ss.isEmpty then some .integer else none
  | .eq | .ne => if ss = [.integer, .integer] ∨ ss = [.boolean, .boolean] then some .boolean
    else none
  | .lt | .le | .gt | .ge => if ss = [.integer, .integer] then some .boolean else none
  | .sub | .div | .mod | .pow | .bitAnd | .bitOr | .bitXor =>
    if ss = [.integer, .integer] then some .integer else none

mutual
/-- The path of a tree that is well sorted. -/
def pathWith (idiom : String → Option (Option Path)) : Expr → Option Path
  | .ident name => some (.name name)
  | .num digits => if σ.admits digits then some (.value .integer) else none
  | .bool _ => some (.value .boolean)
  | .not e =>
    (pathWith idiom e).bind fun p =>
      if σ.sortAt p = .boolean then some (.value .boolean) else none
  | .neg e =>
    (pathWith idiom e).bind fun p =>
      if σ.sortAt p = .integer then some (.value .integer) else none
  | .op o args => (sortsWith idiom args).bind fun ss => (operate o ss).map .value
  | .call f args =>
    (pathWith idiom f).bind fun p => (sortsWith idiom args).bind fun ss => p.call? idiom ss
  | .index base key =>
    (pathWith idiom base).bind fun p => (pathWith idiom key).bind fun k => p.index? (σ.sortAt k)
  | .member base field => (pathWith idiom base).bind fun p => p.member? field

def sortsWith (idiom : String → Option (Option Path)) : List Expr → Option (List ValueSort)
  | [] => some []
  | e :: es =>
    (pathWith idiom e).bind fun p => (sortsWith idiom es).map fun ss => σ.sortAt p :: ss
end

def idiom (f : String) : Option (Option Path) :=
  (Canonical.localIdioms.lookup f).map (σ.pathWith fun _ => none)

/-- The sort of a tree, if it is well sorted. -/
def sort? (e : Expr) : Option ValueSort := (σ.pathWith σ.idiom e).map σ.sortAt

end Signature

/-- What is read has the sort of its place, and exactly the admitted numerals denote numbers. -/
structure Interp.Respects (I : Interp K) (σ : Signature) : Prop where
  read : ∀ p, (I.read p).sort = σ.read p.path
  literal : ∀ digits, (I.literal? digits).isSome = σ.admits digits

theorem Value.sort_eq_boolean {v : Value K} : v.sort = .boolean ↔ v.isBool = true := by
  cases v <;> simp [sort, isBool]

theorem Value.sort_eq_integer {v : Value K} : v.sort = .integer ↔ v.isNum = true := by
  cases v <;> simp [sort, isNum]

@[simp] theorem Place.isBase_path (p : Place K) : p.path.isBase = p.isBase := by
  cases p with
  | value v => cases v <;> rfl
  | _ => rfl

/-- An operation on operands of fitting sorts has a value. -/
theorem Interp.operate_of_sorts [CommRing K] [LinearOrder K] (I : Interp K) {o : Operator}
    {vs : List (Value K)} {s : ValueSort}
    (h : Signature.operate o (vs.map Value.sort) = some s) :
    ∃ v, I.operate o vs = some v ∧ v.sort = s := by
  have allBool : (vs.map Value.sort).all (· = .boolean) = vs.all Value.isBool := by
    rw [List.all_map]
    exact List.all_congr rfl fun v => by simp [Value.sort_eq_boolean]
  have allNum : (vs.map Value.sort).all (· = .integer) = vs.all Value.isNum := by
    rw [List.all_map]
    exact List.all_congr rfl fun v => by simp [Value.sort_eq_integer]
  have numbers : vs.map Value.sort = [.integer, .integer] → ∃ x y, vs = [.num x, .num y] := by
    match vs with
    | [] | [_] | _ :: _ :: _ :: _ => simp
    | [v, w] => cases v <;> cases w <;> simp [Value.sort]
  have truths : vs.map Value.sort = [.boolean, .boolean] → ∃ a b, vs = [.bool a, .bool b] := by
    match vs with
    | [] | [_] | _ :: _ :: _ :: _ => simp
    | [v, w] => cases v <;> cases w <;> simp [Value.sort]
  cases o
  case and | or =>
    simp only [Signature.operate, allBool, Option.ite_none_right_eq_some, Option.some.injEq] at h
    obtain ⟨bools, rfl⟩ := h
    exact ⟨_, if_pos bools, rfl⟩
  case add =>
    simp only [Signature.operate, allNum, Option.ite_none_right_eq_some, Option.some.injEq] at h
    obtain ⟨nums, rfl⟩ := h
    exact ⟨_, if_pos nums, rfl⟩
  case mul =>
    simp only [Signature.operate, allNum, List.isEmpty_map, Option.ite_none_right_eq_some,
      Option.some.injEq] at h
    obtain ⟨nums, rfl⟩ := h
    exact ⟨_, if_pos nums, rfl⟩
  case eq | ne =>
    simp only [Signature.operate, Option.ite_none_right_eq_some, Option.some.injEq] at h
    obtain ⟨sorts | sorts, rfl⟩ := h
    · obtain ⟨x, y, rfl⟩ := numbers sorts
      exact ⟨_, rfl, rfl⟩
    · obtain ⟨a, b, rfl⟩ := truths sorts
      exact ⟨_, rfl, rfl⟩
  all_goals
    simp only [Signature.operate, Option.ite_none_right_eq_some, Option.some.injEq] at h
    obtain ⟨sorts, rfl⟩ := h
    obtain ⟨x, y, rfl⟩ := numbers sorts
    exact ⟨_, rfl, rfl⟩

/-- Idiom calls have a place of their path. -/
structure IdiomsRespect (idiom : String → Option (Option (Place K)))
    (paths : String → Option (Option Path)) : Prop where
  unknown : ∀ f, paths f = none → idiom f = none
  known : ∀ f p, paths f = some (some p) → ∃ q, idiom f = some (some q) ∧ q.path = p

theorem IdiomsRespect.call? {idiom : String → Option (Option (Place K))}
    {paths : String → Option (Option Path)} (h : IdiomsRespect idiom paths) {p : Place K}
    {args : List (Value K)} {r : Path} (call : p.path.call? paths (args.map Value.sort) = some r) :
    ∃ q, p.call? idiom args = some q ∧ q.path = r := by
  cases p with
  | value v =>
    cases v with
    | bool b => simp [Path.call?, Place.path, Value.sort] at call
    | num x => exact ⟨.call (.value (.num x)) args, rfl,
        by simpa [Path.call?, Place.path, Value.sort] using call⟩
  | name f =>
    cases args with
    | nil =>
      simp only [Place.path, List.map_nil, Path.call?] at call
      match entry : paths f with
      | none =>
        rw [entry, Option.getD_none, Option.some.injEq] at call
        exact ⟨.call (.name f) [], by simp [Place.call?, h.unknown f entry], call⟩
      | some none => simp [entry] at call
      | some (some p) =>
        rw [entry, Option.getD_some, Option.some.injEq] at call
        obtain ⟨q, place, path⟩ := h.known f p entry
        exact ⟨q, by simp [Place.call?, place], path.trans call⟩
    | cons v vs =>
      exact ⟨.call (.name f) (v :: vs), rfl, by simpa [Path.call?, Place.path] using call⟩
  | call p vs => exact ⟨.call (.call p vs) args, rfl, by simpa [Path.call?, Place.path] using call⟩
  | index p k => exact ⟨.call (.index p k) args, rfl, by simpa [Path.call?, Place.path] using call⟩
  | member p f => exact ⟨.call (.member p f) args, rfl, by simpa [Path.call?, Place.path] using call⟩

namespace Interp.Respects

variable {I : Interp K} {σ : Signature}

theorem sort_valueAt (resp : I.Respects σ) (p : Place K) :
    (I.valueAt p).sort = σ.sortAt p.path := by
  cases p with
  | value v => rfl
  | _ => exact resp.read _

variable [CommRing K] [LinearOrder K]

mutual
theorem placeWith (resp : I.Respects σ) {idiom : String → Option (Option (Place K))}
    {idiom' : String → Option (Option Path)} (known : IdiomsRespect idiom idiom') :
    ∀ {e : Expr} {p : Path}, σ.pathWith idiom' e = some p →
      ∃ q, I.placeWith idiom e = some q ∧ q.path = p
  | .ident name, p, h => by
    simp only [Signature.pathWith, Option.some.injEq] at h
    exact ⟨.name name, rfl, h⟩
  | .num digits, p, h => by
    simp only [Signature.pathWith, Option.ite_none_right_eq_some, Option.some.injEq] at h
    obtain ⟨x, literal⟩ := Option.isSome_iff_exists.1 ((resp.literal digits).trans h.1)
    exact ⟨.value (.num x), by simp [Interp.placeWith, literal], h.2⟩
  | .bool b, p, h => by
    simp only [Signature.pathWith, Option.some.injEq] at h
    exact ⟨.value (.bool b), rfl, h⟩
  | .not e, p, h => by
    obtain ⟨r, path, h⟩ := Option.bind_eq_some_iff.1 h
    obtain ⟨q, place, rfl⟩ := placeWith resp known path
    simp only [← resp.sort_valueAt, Option.ite_none_right_eq_some, Option.some.injEq] at h
    obtain ⟨b, value⟩ := Value.isBool_iff_exists.1 (Value.sort_eq_boolean.1 h.1)
    exact ⟨.value (.bool !b), by simp [Interp.placeWith, place, value, Value.not?], h.2⟩
  | .neg e, p, h => by
    obtain ⟨r, path, h⟩ := Option.bind_eq_some_iff.1 h
    obtain ⟨q, place, rfl⟩ := placeWith resp known path
    simp only [← resp.sort_valueAt, Option.ite_none_right_eq_some, Option.some.injEq] at h
    obtain ⟨x, value⟩ := Value.isNum_iff_exists.1 (Value.sort_eq_integer.1 h.1)
    exact ⟨.value (.num (-x)), by simp [Interp.placeWith, place, value, Value.neg?], h.2⟩
  | .op o args, p, h => by
    obtain ⟨ss, sorts, h⟩ := Option.bind_eq_some_iff.1 h
    obtain ⟨vs, values, rfl⟩ := valuesWith resp known sorts
    obtain ⟨s, sort, rfl⟩ := Option.map_eq_some_iff.1 h
    obtain ⟨v, value, rfl⟩ := I.operate_of_sorts sort
    exact ⟨.value v, by simp [Interp.placeWith, values, value], rfl⟩
  | .call f args, p, h => by
    obtain ⟨r, path, h⟩ := Option.bind_eq_some_iff.1 h
    obtain ⟨q, place, rfl⟩ := placeWith resp known path
    obtain ⟨ss, sorts, h⟩ := Option.bind_eq_some_iff.1 h
    obtain ⟨vs, values, rfl⟩ := valuesWith resp known sorts
    obtain ⟨r, call, rfl⟩ := known.call? h
    exact ⟨r, by simp [Interp.placeWith, place, values, call], rfl⟩
  | .index base key, p, h => by
    obtain ⟨r, path, h⟩ := Option.bind_eq_some_iff.1 h
    obtain ⟨q, place, rfl⟩ := placeWith resp known path
    obtain ⟨s, keyPath, h⟩ := Option.bind_eq_some_iff.1 h
    obtain ⟨k, keyPlace, rfl⟩ := placeWith resp known keyPath
    simp only [Path.index?, Place.isBase_path, ← resp.sort_valueAt,
      Option.ite_none_right_eq_some, Option.some.injEq] at h
    exact ⟨.index q (I.valueAt k), by simp [Interp.placeWith, place, keyPlace, Place.index?, h.1],
      h.2⟩
  | .member base field, p, h => by
    obtain ⟨r, path, h⟩ := Option.bind_eq_some_iff.1 h
    obtain ⟨q, place, rfl⟩ := placeWith resp known path
    simp only [Path.member?, Place.isBase_path, Option.ite_none_right_eq_some,
      Option.some.injEq] at h
    exact ⟨.member q field, by simp [Interp.placeWith, place, Place.member?, h.1], h.2⟩

theorem valuesWith (resp : I.Respects σ) {idiom : String → Option (Option (Place K))}
    {idiom' : String → Option (Option Path)} (known : IdiomsRespect idiom idiom') :
    ∀ {es : List Expr} {ss : List ValueSort}, σ.sortsWith idiom' es = some ss →
      ∃ vs, I.valuesWith idiom es = some vs ∧ vs.map Value.sort = ss
  | [], ss, h => by
    simp only [Signature.sortsWith, Option.some.injEq] at h
    exact ⟨[], rfl, h⟩
  | e :: es, ss, h => by
    obtain ⟨r, path, h⟩ := Option.bind_eq_some_iff.1 h
    obtain ⟨q, place, rfl⟩ := placeWith resp known path
    obtain ⟨ts, sorts, rfl⟩ := Option.map_eq_some_iff.1 h
    obtain ⟨vs, values, rfl⟩ := valuesWith resp known sorts
    exact ⟨I.valueAt q :: vs, by simp [Interp.valuesWith, place, values],
      by rw [List.map_cons, resp.sort_valueAt]⟩
end

theorem idioms (resp : I.Respects σ) : IdiomsRespect I.idiom σ.idiom where
  unknown f h := by
    simpa [Interp.idiom, Signature.idiom] using h
  known f p h := by
    obtain ⟨e, entry, path⟩ := Option.map_eq_some_iff.1 h
    obtain ⟨q, place, rfl⟩ := resp.placeWith ⟨fun _ _ => rfl, by simp⟩ path
    exact ⟨q, by simp [Interp.idiom, entry, place], rfl⟩

/-- A well-sorted tree has a value of its sort. -/
theorem value? (resp : I.Respects σ) {e : Expr} {s : ValueSort} (h : σ.sort? e = some s) :
    ∃ v, I.value? e = some v ∧ v.sort = s := by
  obtain ⟨p, path, rfl⟩ := Option.map_eq_some_iff.1 h
  obtain ⟨q, place, rfl⟩ := resp.placeWith resp.idioms path
  exact ⟨I.valueAt q, by simp [Interp.value?, Interp.place?, place], resp.sort_valueAt q⟩

end Interp.Respects

end PredicateStrength
