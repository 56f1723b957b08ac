import Mathlib
import PredicateStrength.Proofs.Expr.Meaning
import PredicateStrength.Proofs.Expr.Pattern
import PredicateStrength.Proofs.Expr.Renaming

/-!
# Where numerals stand

A numeral can stand inside an application, a read or an operation `/ % ** & | ^`, or outside of all
of these, in sums, differences, products, comparisons and junctions only. The passes write no
numerals, and move none from the inside out or from the outside in, except that a mask that is
compared with zero becomes an argument: inside both times.

Main statement: `Expr.Numerals.canonical`.
-/
namespace PredicateStrength

variable {Q P : String → Prop}

namespace Expr

mutual
/-- Every numeral satisfies `P`, and those inside applications, reads and `/ % ** & | ^` satisfy
`Q`. -/
def Numerals (Q P : String → Prop) : Expr → Prop
  | .ident _ | .bool _ => True
  | .num digits => P digits
  | .not e | .neg e => Numerals Q P e
  | .op o args => NumeralsAll Q (if o.isFree then Q else P) args
  | .call f args => Numerals Q Q f ∧ NumeralsAll Q Q args
  | .index base key => Numerals Q Q base ∧ Numerals Q Q key
  | .member base _ => Numerals Q Q base

def NumeralsAll (Q P : String → Prop) : List Expr → Prop
  | [] => True
  | e :: es => Numerals Q P e ∧ NumeralsAll Q P es
end

variable {e : Expr} {es : List Expr}

theorem numeralsAll_iff : NumeralsAll Q P es ↔ ∀ e ∈ es, e.Numerals Q P := by
  induction es with
  | nil => simp [NumeralsAll]
  | cons e es ih => rw [NumeralsAll, ih, List.forall_mem_cons]

@[simp] theorem numerals_ident {x : String} : (ident x).Numerals Q P := trivial

@[simp] theorem numerals_bool {b : Bool} : (bool b).Numerals Q P := trivial

@[simp] theorem numerals_num {digits : String} : (num digits).Numerals Q P ↔ P digits := Iff.rfl

@[simp] theorem numerals_not : (not e).Numerals Q P ↔ e.Numerals Q P := Iff.rfl

@[simp] theorem numerals_neg : (neg e).Numerals Q P ↔ e.Numerals Q P := Iff.rfl

@[simp] theorem numerals_op {o : Operator} :
    (op o es).Numerals Q P ↔ ∀ a ∈ es, a.Numerals Q (if o.isFree then Q else P) := numeralsAll_iff

@[simp] theorem numerals_call {f : Expr} :
    (call f es).Numerals Q P ↔ f.Numerals Q Q ∧ ∀ a ∈ es, a.Numerals Q Q :=
  and_congr_right' numeralsAll_iff

@[simp] theorem numerals_index {base key : Expr} :
    (index base key).Numerals Q P ↔ base.Numerals Q Q ∧ key.Numerals Q Q := Iff.rfl

@[simp] theorem numerals_member {base : Expr} {field : String} :
    (member base field).Numerals Q P ↔ base.Numerals Q Q := Iff.rfl

mutual
/-- What is true of every numeral is true of those in a tree. -/
theorem numerals_of_forall (every : ∀ d, P d) : ∀ e : Expr, e.Numerals P P
  | .ident _ | .bool _ => trivial
  | .num digits => every digits
  | .not e | .neg e => numerals_of_forall every e
  | .op o args => by
    rw [Numerals, ite_self]
    exact numeralsAll_of_forall every args
  | .call f args => ⟨numerals_of_forall every f, numeralsAll_of_forall every args⟩
  | .index base key => ⟨numerals_of_forall every base, numerals_of_forall every key⟩
  | .member base _ => numerals_of_forall every base

theorem numeralsAll_of_forall (every : ∀ d, P d) : ∀ es : List Expr, NumeralsAll P P es
  | [] => trivial
  | e :: es => ⟨numerals_of_forall every e, numeralsAll_of_forall every es⟩
end

mutual
theorem Numerals.mono {Q' : String → Prop} (inside : ∀ d, Q d → Q' d) :
    ∀ {e : Expr} {P P' : String → Prop}, (∀ d, P d → P' d) → e.Numerals Q P → e.Numerals Q' P'
  | .ident _, _, _, _, _ => trivial
  | .bool _, _, _, _, _ => trivial
  | .num digits, _, _, outside, h => outside digits h
  | .not e, _, _, outside, h => Numerals.mono inside (e := e) outside h
  | .neg e, _, _, outside, h => Numerals.mono inside (e := e) outside h
  | .op o args, P, P', outside, h => by
    refine numeralsAll_mono inside (P := if o.isFree then Q else P) ?_ h
    split
    · exact inside
    · exact outside
  | .call f args, _, _, _, h =>
    ⟨Numerals.mono inside inside h.1, numeralsAll_mono inside inside h.2⟩
  | .index base key, _, _, _, h =>
    ⟨Numerals.mono inside inside h.1, Numerals.mono inside inside h.2⟩
  | .member base _, _, _, _, h => Numerals.mono inside (e := base) inside h

theorem numeralsAll_mono {Q' : String → Prop} (inside : ∀ d, Q d → Q' d) :
    ∀ {es : List Expr} {P P' : String → Prop}, (∀ d, P d → P' d) → NumeralsAll Q P es →
      NumeralsAll Q' P' es
  | [], _, _, _, _ => trivial
  | _ :: _, _, _, outside, h =>
    ⟨Numerals.mono inside outside h.1, numeralsAll_mono inside outside h.2⟩
end

/-- What is kept for the parts, wherever they stand, is kept for the node. -/
theorem numerals_mapParts {g : Expr → Expr} (imp : ∀ d, Q d → P d)
    (parts : ∀ c ∈ e.parts, ∀ P' : String → Prop, (∀ d, Q d → P' d) → c.Numerals Q P' →
      (g c).Numerals Q P') (h : e.Numerals Q P) : (e.mapParts g).Numerals Q P := by
  have inside : ∀ c ∈ e.parts, c.Numerals Q Q → (g c).Numerals Q Q := fun c mem =>
    parts c mem Q fun _ => id
  cases e with
  | op o args =>
    have wider : ∀ d, Q d → (if o.isFree then Q else P) d := by
      split
      · exact fun _ => id
      · exact imp
    exact numerals_op.2 (List.forall_mem_map.2 fun c mem =>
      parts c mem _ wider (numerals_op.1 h c mem))
  | call f args =>
    obtain ⟨callee, rest⟩ := numerals_call.1 h
    exact numerals_call.2 ⟨inside f List.mem_cons_self callee,
      List.forall_mem_map.2 fun c mem => inside c (List.mem_cons_of_mem f mem) (rest c mem)⟩
  | index base key =>
    exact ⟨inside base (by simp [Expr.parts]) h.1, inside key (by simp [Expr.parts]) h.2⟩
  | member base field => exact inside base (by simp [Expr.parts]) h
  | not e | neg e => exact parts e (by simp [Expr.parts]) P imp h
  | ident | bool => trivial
  | num digits => exact h

end Expr

namespace Canonical
open PredicateStrength.Expr

/-- The rule moves no numeral inside or outside. -/
def KeepsNumerals (Q : String → Prop) (rule : Expr → Expr) : Prop :=
  ∀ P : String → Prop, (∀ d, Q d → P d) → ∀ e : Expr, e.Numerals Q P → (rule e).Numerals Q P

namespace KeepsNumerals

theorem bottomUp {rule : Expr → Expr} (keeps : KeepsNumerals Q rule) :
    KeepsNumerals Q (Expr.bottomUp rule) := by
  intro P imp e
  induction e using inductionOnParts generalizing P with
  | node e ih =>
    intro h
    rw [bottomUp_eq]
    exact keeps P imp _ (numerals_mapParts imp (fun c mem P' imp' => ih c mem P' imp') h)

theorem expandIdiom : KeepsNumerals Q expandIdiom := by
  intro P imp e h
  unfold Canonical.expandIdiom
  split
  · next f =>
    cases found : localIdioms.lookup f with
    | none => exact h
    | some body =>
      have known := mem_of_lookup found
      simp only [localIdioms, List.mem_cons, Prod.mk.injEq, List.not_mem_nil, or_false] at known
      rcases known with ⟨-, rfl⟩ | ⟨-, rfl⟩ | ⟨-, rfl⟩ <;> simp [Expr.binary, Expr.apply]
  · exact h

theorem foldBoolEquality : KeepsNumerals Q foldBoolEquality := by
  intro P imp e h
  unfold Canonical.foldBoolEquality
  split
  all_goals first | exact h | (split <;> simp_all [Operator.isFree])

theorem dropDoubleNegation : KeepsNumerals Q dropDoubleNegation := by
  intro P imp e h
  unfold Canonical.dropDoubleNegation
  split <;> exact h

theorem moveSubtrahends {side other : Expr} (left : side.Numerals Q P)
    (right : other.Numerals Q P) : (moveSubtrahends side other).1.Numerals Q P ∧
      (moveSubtrahends side other).2.Numerals Q P := by
  fun_induction Canonical.moveSubtrahends with
  | case1 a b other ih =>
    have both := numerals_op.1 left
    have first : a.Numerals Q P := both a (by simp)
    have second : b.Numerals Q P := both b (by simp)
    exact ih first (by simp [Expr.binary, Operator.isFree, right, second])
  | case2 side other => exact ⟨left, right⟩

theorem shiftSubtraction : KeepsNumerals Q shiftSubtraction := by
  intro P imp e h
  unfold Canonical.shiftSubtraction
  split
  · next o lhs rhs =>
    split
    · next rel =>
      have free : o.isFree = false := by cases o <;> first | rfl | cases rel
      have sides := numerals_op.1 h
      simp only [free, Bool.false_eq_true, if_false] at sides
      obtain ⟨first, second⟩ := moveSubtrahends (sides rhs (by simp)) (sides lhs (by simp))
      obtain ⟨third, fourth⟩ := moveSubtrahends second first
      simp [free, third, fourth]
    · exact h
  · exact h

/-- Operands of operands stand where the operands stood. -/
theorem splice {o : Operator} {args : List Expr} (h : (op o args).Numerals Q P) :
    (op o (splice o args)).Numerals Q P := by
  rw [numerals_op] at h ⊢
  intro c mem
  obtain ⟨a, inside, mem⟩ := List.mem_flatMap.1 mem
  have outer := h a inside
  rcases mem_operands mem with ⟨rfl, -⟩ | ⟨args', rfl, within⟩
  · exact outer
  · have inner := numerals_op.1 outer c within
    by_cases free : o.isFree = true <;> simpa [free] using inner

/-- Operands may be put in order. -/
theorem sorted {o : Operator} {args : List Expr} (h : (op o args).Numerals Q P) :
    (op o (Expr.sorted args)).Numerals Q P :=
  numerals_op.2 fun c mem => numerals_op.1 h c ((Sorting.mem_sort Expr.cmp).1 mem)

theorem flatten : KeepsNumerals Q flatten := by
  intro P imp e h
  unfold Canonical.flatten
  split
  · split
    · exact splice h
    · exact h
  · exact h

theorem normalizeSum : KeepsNumerals Q normalizeSum := by
  intro P imp e h
  unfold Canonical.normalizeSum
  split
  · exact sorted (splice h)
  · exact h

theorem sortCommutative : KeepsNumerals Q sortCommutative := by
  intro P imp e h
  unfold Canonical.sortCommutative
  split
  · split
    · exact sorted h
    · exact h
  · exact h

theorem orderEquality : KeepsNumerals Q orderEquality := by
  intro P imp e h
  unfold Canonical.orderEquality
  split
  all_goals first | exact h | (split <;> simp_all)

/-- A masked value stands inside, as an argument does. -/
theorem flagTest? {a e : Expr} (test : flagTest? a = some e) (h : a.Numerals Q P) :
    e.Numerals Q P := by
  unfold Canonical.flagTest? at test
  split at test
  · next a b =>
    have sides := numerals_op.1 h
    simp only [Operator.isFree, if_true] at sides
    obtain ⟨⟨mask, predicate⟩, -, found⟩ := List.exists_of_findSome?_eq_some test
    dsimp only at found
    split at found
    · cases found
      simp [Expr.apply, sides a]
    · split at found
      · cases found
        simp [Expr.apply, sides b]
      · cases found
  · cases test

theorem expandFlag : KeepsNumerals Q expandFlag := by
  intro P imp e h
  have test : ∀ {o : Operator} {a b c : Expr}, o.isFree = false → (op o [a, b]).Numerals Q P →
      (comparedWithZero? a b).bind Canonical.flagTest? = some c → c.Numerals Q P := by
    intro o a b c free h test
    have sides := numerals_op.1 h
    simp only [free, Bool.false_eq_true, if_false] at sides
    obtain ⟨masked, zero, test⟩ := Option.bind_eq_some_iff.1 test
    unfold comparedWithZero? at zero
    split at zero
    · cases zero
      exact flagTest? test (sides _ (by simp))
    · split at zero
      · cases zero
        exact flagTest? test (sides _ (by simp))
      · cases zero
  unfold Canonical.expandFlag
  split
  · next a b =>
    match found : (comparedWithZero? a b).bind Canonical.flagTest? with
    | none => exact h
    | some c => exact test (o := .eq) (c := c) rfl h found
  · next a b =>
    cases found : (comparedWithZero? a b).bind Canonical.flagTest? with
    | none => exact h
    | some c => exact test rfl h found
  · exact h

theorem round : KeepsNumerals Q Canonical.round := by
  intro P imp e h
  rw [Canonical.round_eq]
  exact expandFlag.bottomUp P imp _ <| orderEquality.bottomUp P imp _ <|
    sortCommutative.bottomUp P imp _ <| normalizeSum.bottomUp P imp _ <|
    flatten.bottomUp P imp _ <| shiftSubtraction.bottomUp P imp _ <|
    dropDoubleNegation.bottomUp P imp _ <| foldBoolEquality.bottomUp P imp _ <|
    expandIdiom.bottomUp P imp _ h

end KeepsNumerals
end Canonical

/-- The numerals of the canonical tree stand where they stood in the tree. -/
theorem Expr.Numerals.canonical (imp : ∀ d, Q d → P d) {e : Expr} (h : e.Numerals Q P) :
    e.canonical.Numerals Q P := by
  rw [Expr.canonical, Canonical.rounds_eq_iterate]
  generalize Canonical.maxRounds = n
  induction n generalizing e with
  | zero => exact h
  | succ n ih =>
    rw [Function.iterate_succ_apply]
    exact ih (Canonical.KeepsNumerals.round P imp e h)

end PredicateStrength
