import Mathlib
import PredicateStrength.Proofs.Expr.Canonical
import PredicateStrength.Rule

/-!
# The rules claim no false implication

A rule is sound for every reading of trees as truth values that respects conjunctions, disjunctions
and what the two comparison rules claim; the clause rule follows by the recursion that it makes
through the disjuncts of both sides. One such reading is that of an interpretation over the
rationals, with arbitrary values for `/ % ** & | ^` and for numerals without an exact value.

Main statements: `Rule.Model.implies`, and `Rule.implies_sound` for interpretations.
-/
namespace PredicateStrength

namespace Interp

variable {K : Type} [CommRing K] [LinearOrder K] {I : Interp K}

/-- If the first tree is true, the second is not false. -/
def Implies (I : Interp K) (a b : Expr) : Prop :=
  I.Satisfies a → ∀ c, I.value? b = some (.bool c) → c = true

theorem Implies.refl (a : Expr) : I.Implies a a := by
  intro sat c value
  exact (Value.bool.inj (Option.some.inj (sat.symm.trans value))).symm

/-- Truth values of trees, taken together. -/
theorem values?_truths {es : List Expr} {vs : List (Value K)} (values : I.values? es = some vs)
    (bools : vs.all Value.isBool = true) :
    (∀ e ∈ es, ∃ b, I.value? e = some (.bool b)) ∧
      (vs.all Value.truth = true ↔ ∀ e ∈ es, I.Satisfies e) ∧
      (vs.any Value.truth = true ↔ ∃ e ∈ es, I.Satisfies e) := by
  have each := values?_eq_some_iff.1 values
  clear values
  induction each with
  | nil => simp
  | @cons e v es vs value _ ih =>
    rw [List.all_cons, Bool.and_eq_true] at bools
    obtain ⟨b, rfl⟩ := Value.isBool_iff_exists.1 bools.1
    obtain ⟨sorted, all, any⟩ := ih bools.2
    have first : I.Satisfies e ↔ b = true := by simp [Satisfies, value]
    refine ⟨?_, ?_, ?_⟩
    · exact List.forall_mem_cons.2 ⟨⟨b, value⟩, sorted⟩
    · simp [all, first, Value.truth]
    · simp [any, first, Value.truth]

/-- Operands with truth values can be joined. -/
theorem exists_values?_truths {es : List Expr}
    (each : ∀ e ∈ es, ∃ b, I.value? e = some (.bool b)) :
    ∃ vs, I.values? es = some vs ∧ vs.all Value.isBool = true := by
  induction es with
  | nil => exact ⟨[], rfl, rfl⟩
  | cons e es ih =>
    obtain ⟨⟨b, value⟩, rest⟩ := List.forall_mem_cons.1 each
    obtain ⟨vs, values, bools⟩ := ih rest
    exact ⟨.bool b :: vs, values?_eq_some_iff.2 (.cons value (values?_eq_some_iff.1 values)), bools⟩

theorem value?_and {es : List Expr} {c : Bool} (value : I.value? (.op .and es) = some (.bool c)) :
    (∀ e ∈ es, ∃ b, I.value? e = some (.bool b)) ∧ (c = true ↔ ∀ e ∈ es, I.Satisfies e) := by
  obtain ⟨vs, values, operation⟩ := value?_op_eq_some.1 value
  simp only [operate, Option.ite_none_right_eq_some, Option.some.injEq, Value.bool.injEq]
    at operation
  obtain ⟨bools, rfl⟩ := operation
  obtain ⟨sorted, all, -⟩ := values?_truths values bools
  exact ⟨sorted, all⟩

theorem value?_or {es : List Expr} {c : Bool} (value : I.value? (.op .or es) = some (.bool c)) :
    (∀ e ∈ es, ∃ b, I.value? e = some (.bool b)) ∧ (c = true ↔ ∃ e ∈ es, I.Satisfies e) := by
  obtain ⟨vs, values, operation⟩ := value?_op_eq_some.1 value
  simp only [operate, Option.ite_none_right_eq_some, Option.some.injEq, Value.bool.injEq]
    at operation
  obtain ⟨bools, rfl⟩ := operation
  obtain ⟨sorted, -, any⟩ := values?_truths values bools
  exact ⟨sorted, any⟩

theorem operate_eq_bool {o : Operator} (rel : o.isRelational = true) {v : Value K} {y : K}
    {c : Bool} (h : I.operate o [v, .num y] = some (.bool c)) :
    ∃ x, v = .num x ∧ c = relate o x y := by
  cases v with
  | num x =>
    rw [operate_num rel] at h
    exact ⟨x, rfl, (Value.bool.inj (Option.some.inj h)).symm⟩
  | bool b => cases o <;> cases rel <;> cases h

theorem operate_mirrored {o : Operator} (rel : o.isRelational = true) (v w : Value K) :
    I.operate o.mirrored [v, w] = I.operate o [w, v] := by
  cases o <;> simp only [Operator.isRelational, Bool.false_eq_true] at rel
  all_goals
    cases v <;> cases w <;>
      simp [operate, relate, Operator.mirrored, eq_comm, Bool.beq_comm, bne_comm]

end Interp

theorem Expr.relation?_eq_some {e lhs rhs : Expr} {o : Operator} :
    e.relation? = some (o, lhs, rhs) ↔ e = .op o [lhs, rhs] ∧ o.isRelational = true := by
  unfold Expr.relation?
  split
  · next p a b =>
    by_cases rel : p.isRelational = true
    · simp only [rel, if_true, Option.some.injEq, Prod.mk.injEq, Expr.op.injEq, List.cons.injEq,
        and_true]
      constructor
      · rintro ⟨rfl, rfl, rfl⟩
        exact ⟨⟨rfl, rfl, rfl⟩, rel⟩
      · rintro ⟨⟨rfl, rfl, rfl⟩, -⟩
        exact ⟨rfl, rfl, rfl⟩
    · simp only [rel, if_false, reduceCtorEq, Expr.op.injEq, List.cons.injEq, and_true, false_iff]
      rintro ⟨⟨rfl, -⟩, rel'⟩
      exact rel rel'
  · next other =>
    simp only [reduceCtorEq, false_iff]
    rintro ⟨rfl, -⟩
    exact other o lhs rhs rfl

namespace Rule
open Interp

theorem relate_of_operatorImplies {K : Type} [LinearOrder K] {o p : Operator}
    (h : operatorImplies o p = true) {x y : K} (first : relate o x y = true) :
    relate p x y = true := by
  unfold operatorImplies at h
  rw [Bool.or_eq_true, decide_eq_true_eq] at h
  rcases h with rfl | h
  · exact first
  · split at h <;> simp only [relate, decide_eq_true_eq, reduceCtorEq] at h first ⊢
    · exact first.le
    · exact first.ne
    · exact first.le
    · exact first.ne'
    · exact first.le
    · exact first.ge

section Relational

variable {K : Type} [CommRing K] [LinearOrder K] {I : Interp K}

theorem operate_of_operatorImplies {o p : Operator} (h : operatorImplies o p = true)
    (rel : o.isRelational = true) (rel' : p.isRelational = true) {v w : Value K}
    (first : I.operate o [v, w] = some (.bool true)) {c : Bool}
    (second : I.operate p [v, w] = some (.bool c)) : c = true := by
  by_cases same : o = p
  · cases same
    exact Value.bool.inj (Option.some.inj (second.symm.trans first))
  cases v with
  | num x =>
    cases w with
    | num y =>
      rw [operate_num rel] at first
      rw [operate_num rel'] at second
      have holds := relate_of_operatorImplies h (Value.bool.inj (Option.some.inj first))
      rw [← Value.bool.inj (Option.some.inj second), holds]
    | bool b => cases o <;> cases rel <;> cases first
  | bool a =>
    cases w with
    | num y => cases o <;> cases rel <;> cases first
    | bool b =>
      -- truth values are compared for (in)equality only, which implies no other such comparison
      cases o <;> cases rel <;> cases p <;> simp [operatorImplies, operate] at h same first second

theorem relationalStrength_sound {a b : Expr} (h : relationalStrength a b = true) :
    I.Implies a b := by
  unfold relationalStrength at h
  split at h
  · next o al ar p bl br ha hb =>
    obtain ⟨rfl, rel⟩ := Expr.relation?_eq_some.1 ha
    obtain ⟨rfl, rel'⟩ := Expr.relation?_eq_some.1 hb
    intro sat c value
    obtain ⟨v, w, hl, hr, first⟩ := value?_binary_eq_some.1 sat
    obtain ⟨v', w', hl', hr', second⟩ := value?_binary_eq_some.1 value
    split at h
    · next same =>
      obtain ⟨rfl, rfl⟩ := same
      cases Option.some.inj (hl.symm.trans hl')
      cases Option.some.inj (hr.symm.trans hr')
      exact operate_of_operatorImplies h rel rel' first second
    · split at h
      · next same =>
        obtain ⟨rfl, rfl⟩ := same
        cases Option.some.inj (hl.symm.trans hr')
        cases Option.some.inj (hr.symm.trans hl')
        rw [← operate_mirrored rel'] at second
        have rel'' : p.mirrored.isRelational = true := by cases p <;> cases rel' <;> rfl
        exact operate_of_operatorImplies h rel rel'' first second
      · cases h
  · cases h

end Relational

end Rule

namespace Region

theorem contains_ofComparison {o : Operator} (rel : o.isRelational = true) (q x : Rat) :
    (ofComparison o q).contains x = relate o x q := by
  cases o <;> cases rel
  case eq =>
    rcases lt_trichotomy q x with below | rfl | above
    · simp [ofComparison, contains, relate, End.above, End.below, below.ne, below.ne', below.not_gt]
    · simp [ofComparison, contains, relate, End.above, End.below]
    · simp [ofComparison, contains, relate, End.above, End.below, above.ne, above.ne', above.not_gt]
  all_goals
    simp [ofComparison, contains, relate, End.above, End.below, le_iff_lt_or_eq, eq_comm]

theorem End.below_iff {e : End} {x : Rat} :
    e.below x = true ↔ e.value < x ∨ e.closed = true ∧ e.value = x := by
  simp [End.below]

theorem End.above_iff {e : End} {x : Rat} :
    e.above x = true ↔ x < e.value ∨ e.closed = true ∧ e.value = x := by
  simp [End.above]

/-- An end admits what a tighter end admits; `before` says on which side of an end a value lies. -/
theorem End.admits_of_tighter (before : Rat → Rat → Prop)
    (trans : ∀ {x y z}, before x y → before y z → before x z) {inner outer : End}
    (h : before outer.value inner.value ∨
      inner.value = outer.value ∧ (outer.closed = true ∨ inner.closed = false)) {x : Rat}
    (hx : before inner.value x ∨ inner.closed = true ∧ inner.value = x) :
    before outer.value x ∨ outer.closed = true ∧ outer.value = x := by
  rcases h with outside | ⟨same, closed⟩
  · rcases hx with inside | ⟨-, rfl⟩
    · exact .inl (trans outside inside)
    · exact .inl outside
  · rw [← same]
    rcases hx with inside | ⟨isClosed, at'⟩
    · exact .inl inside
    · exact .inr ⟨closed.resolve_right (by simp [isClosed]), at'⟩

theorem below_of_lowerWithin {inner outer : Option End} (h : lowerWithin inner outer = true)
    {x : Rat} (hx : inner.all (·.below x) = true) : outer.all (·.below x) = true := by
  match inner, outer, h with
  | _, none, _ => rfl
  | some i, some o, h =>
    simp only [lowerWithin, Bool.or_eq_true, Bool.and_eq_true, decide_eq_true_eq,
      Bool.not_eq_true'] at h
    rw [Option.all_some, End.below_iff] at hx ⊢
    exact End.admits_of_tighter (· < ·) lt_trans h hx

theorem above_of_upperWithin {inner outer : Option End} (h : upperWithin inner outer = true)
    {x : Rat} (hx : inner.all (·.above x) = true) : outer.all (·.above x) = true := by
  match inner, outer, h with
  | _, none, _ => rfl
  | some i, some o, h =>
    simp only [upperWithin, Bool.or_eq_true, Bool.and_eq_true, decide_eq_true_eq,
      Bool.not_eq_true'] at h
    rw [Option.all_some, End.above_iff] at hx ⊢
    exact End.admits_of_tighter (· > ·) gt_trans h hx

/-- What lies in the inner region lies in the outer. -/
theorem contains_of_within {r q : Region} (h : r.within q = true) {x : Rat}
    (hx : r.contains x = true) : q.contains x = true := by
  match r, q with
  | .allBut y, .allBut z =>
    have same : y = z := of_decide_eq_true h
    rwa [← same]
  | .interval lo hi, .allBut y =>
    -- the excluded value does not lie in the inner region, so it is not `x`
    have outside : (!(interval lo hi).contains y) = true := h
    rw [Bool.not_eq_true'] at outside
    refine decide_eq_true fun same => ?_
    rw [same, hx] at outside
    cases outside
  | .interval lo hi, .interval lo' hi' =>
    rw [within, Bool.and_eq_true] at h
    rw [contains, Bool.and_eq_true] at hx ⊢
    exact ⟨below_of_lowerWithin h.1 hx.1, above_of_upperWithin h.2 hx.2⟩

end Region

namespace Interp

/-- Numerals have their exact value, if they have one. -/
structure Exact (I : Interp Rat) : Prop extends I.Lawful where
  literal : ∀ digits q x, Numeral.value? digits = some q → I.literal? digits = some x → x = q

variable {I : Interp Rat}

theorem Exact.value?_literal (exact : I.Exact) : ∀ {e : Expr} {q : Rat},
    e.literalValue? = some q → ∀ {v}, I.value? e = some v → v = .num q
  | .num digits, q, literal, v, value => by
    obtain ⟨p, place, rfl⟩ := Option.map_eq_some_iff.1 value
    obtain ⟨x, denoted, rfl⟩ := Option.map_eq_some_iff.1 place
    rw [valueAt_value, exact.literal digits q x literal denoted]
  | .neg e, q, literal, v, value => by
    rw [Expr.literalValue?] at literal
    obtain ⟨r, inner, rfl⟩ := Option.map_eq_some_iff.1 literal
    obtain ⟨x, operand, rfl⟩ := value?_neg_eq_some.1 value
    rw [Value.num.inj (exact.value?_literal inner operand)]

end Interp

namespace Rule
open Interp

variable {I : Interp Rat}

/-- A comparison with a literal is true where its term lies in the region. -/
theorem value?_boundedTerm? (exact : I.Exact) {e t : Expr} {r : Region}
    (h : boundedTerm? e = some (t, r)) {c : Bool} (value : I.value? e = some (.bool c)) :
    ∃ x, I.value? t = some (.num x) ∧ c = r.contains x := by
  unfold boundedTerm? at h
  split at h
  · cases h
  · next o lhs rhs relation =>
    obtain ⟨rfl, rel⟩ := Expr.relation?_eq_some.1 relation
    obtain ⟨v, w, hl, hr, operation⟩ := value?_binary_eq_some.1 value
    split at h
    · next literal =>
      cases h
      cases exact.value?_literal literal hr
      obtain ⟨x, rfl, rfl⟩ := operate_eq_bool rel operation
      exact ⟨x, hl, (Region.contains_ofComparison rel _ x).symm⟩
    · next literal =>
      cases h
      cases exact.value?_literal literal hl
      have rel' : o.mirrored.isRelational = true := by cases o <;> cases rel <;> rfl
      rw [← operate_mirrored rel] at operation
      obtain ⟨x, rfl, rfl⟩ := operate_eq_bool rel' operation
      exact ⟨x, hr, (Region.contains_ofComparison rel' _ x).symm⟩
    · cases h

theorem literalBound_sound (exact : I.Exact) {a b : Expr} (h : literalBound a b = true) :
    I.Implies a b := by
  unfold literalBound at h
  split at h
  · next s r t q ha hb =>
    rw [Bool.and_eq_true, decide_eq_true_eq] at h
    obtain ⟨rfl, inside⟩ := h
    intro sat c value
    obtain ⟨x, first, hx⟩ := value?_boundedTerm? exact ha sat
    obtain ⟨y, second, rfl⟩ := value?_boundedTerm? exact hb value
    cases Option.some.inj (first.symm.trans second)
    exact Region.contains_of_within inside hx.symm
  · cases h

/-- If the first tree is read as true, the second is not read as false. -/
def Implies (T : Expr → Bool → Prop) (a b : Expr) : Prop := T a true → ∀ c, T b c → c = true

/-- A reading of trees as truth values that respects junctions and the two comparison rules; a tree
need not have a truth value, but the operands of a junction that has one do. -/
structure Model (T : Expr → Bool → Prop) : Prop where
  unique : ∀ {e b c}, T e b → T e c → b = c
  and : ∀ {es c}, T (.op .and es) c →
    (∀ e ∈ es, ∃ b, T e b) ∧ (c = true ↔ ∀ e ∈ es, T e true)
  or : ∀ {es c}, T (.op .or es) c →
    (∀ e ∈ es, ∃ b, T e b) ∧ (c = true ↔ ∃ e ∈ es, T e true)
  relational : ∀ {a b}, relationalStrength a b = true → Implies T a b
  bound : ∀ {a b}, literalBound a b = true → Implies T a b

namespace Model

variable {T : Expr → Bool → Prop}

theorem iff_of_truth (model : Model T) {e : Expr} {c : Bool} (value : T e c) :
    c = true ↔ T e true :=
  ⟨fun same => same ▸ value, fun holds => model.unique value holds⟩

/-- What is known of the junctions of an operator holds of every tree as a junction of its
operands. -/
theorem operands_of (model : Model T) {o : Operator} (joined : List Expr → Prop)
    (single : ∀ e, joined [e] ↔ T e true)
    (junction : ∀ {es c}, T (.op o es) c → (∀ e ∈ es, ∃ b, T e b) ∧ (c = true ↔ joined es))
    {e : Expr} {c : Bool} (value : T e c) :
    (∀ x ∈ e.operands o, ∃ b, T x b) ∧ (c = true ↔ joined (e.operands o)) := by
  have alone : (∀ x ∈ [e], ∃ b, T x b) ∧ (c = true ↔ joined [e]) := by
    rw [single]
    exact ⟨List.forall_mem_singleton.2 ⟨c, value⟩, model.iff_of_truth value⟩
  cases e with
  | op p args =>
    rw [Expr.operands]
    split
    · next same =>
      cases same
      exact junction value
    · exact alone
  | _ => exact alone

/-- A tree is true exactly if its conjuncts are. -/
theorem operands_and (model : Model T) {e : Expr} {c : Bool} (value : T e c) :
    (∀ x ∈ e.operands .and, ∃ b, T x b) ∧ (c = true ↔ ∀ x ∈ e.operands .and, T x true) :=
  model.operands_of (∀ x ∈ ·, T x true) (fun _ => List.forall_mem_singleton) model.and value

/-- A tree is true exactly if one of its disjuncts is. -/
theorem operands_or (model : Model T) {e : Expr} {c : Bool} (value : T e c) :
    (∀ x ∈ e.operands .or, ∃ b, T x b) ∧ (c = true ↔ ∃ x ∈ e.operands .or, T x true) :=
  model.operands_of (∃ x ∈ ·, T x true) (by simp) model.or value

theorem conjunctionElimination (model : Model T) {a b : Expr}
    (h : Rule.conjunctionElimination a b = true) : Implies T a b := by
  unfold Rule.conjunctionElimination at h
  split at h
  · next args =>
    simp only [List.all_eq_true, decide_eq_true_eq] at h
    intro sat c value
    exact (model.operands_and value).2.2 fun x mem => (model.and sat).2.1 rfl x (h x mem)
  · cases h

theorem disjunctionIntroduction (model : Model T) {a b : Expr}
    (h : Rule.disjunctionIntroduction a b = true) : Implies T a b := by
  unfold Rule.disjunctionIntroduction at h
  split at h
  · next args =>
    simp only [List.all_eq_true, decide_eq_true_eq] at h
    intro sat c value
    obtain ⟨x, mem, holds⟩ := (model.operands_or sat).2.1 rfl
    exact (model.or value).2.2 ⟨x, h x mem, holds⟩
  · cases h

theorem directlyImplies (model : Model T) {a b : Expr} (h : Rule.directlyImplies a b = true) :
    Implies T a b := by
  rw [Rule.directlyImplies, Bool.or_eq_true, Bool.or_eq_true, decide_eq_true_eq] at h
  rcases h with (rfl | relation) | bound
  · exact fun sat c value => model.unique value sat
  · exact model.relational relation
  · exact model.bound bound

mutual
/-- A tree is not false if one that is reached in it is not. -/
theorem reachesDisjunct (model : Model T) {reaches : Expr → Bool}
    (sound : ∀ e, reaches e = true → ∀ c, T e c → c = true) : ∀ {e : Expr},
      Rule.reachesDisjunct reaches e = true → ∀ {c}, T e c → c = true
  | .op o ds, h, c, value => by
    cases o
    case or =>
      rw [Rule.reachesDisjunct, Bool.or_eq_true] at h
      rcases h with root | inside
      · exact sound _ root c value
      · exact (model.or value).2.2 (model.reachesSomeDisjunct sound inside (model.or value).1)
    all_goals exact sound _ (by simpa [Rule.reachesDisjunct] using h) c value
  | .ident _, h, c, value | .num _, h, c, value | .bool _, h, c, value | .not _, h, c, value
  | .neg _, h, c, value | .call _ _, h, c, value | .index _ _, h, c, value
  | .member _ _, h, c, value => sound _ (by simpa [Rule.reachesDisjunct] using h) c value

theorem reachesSomeDisjunct (model : Model T) {reaches : Expr → Bool}
    (sound : ∀ e, reaches e = true → ∀ c, T e c → c = true) :
    ∀ {es : List Expr}, Rule.reachesSomeDisjunct reaches es = true →
      (∀ e ∈ es, ∃ b, T e b) → ∃ e ∈ es, T e true
  | [], h, _ => by cases h
  | e :: es, h, sorted => by
    rw [Rule.reachesSomeDisjunct, Bool.or_eq_true] at h
    rcases h with first | later
    · obtain ⟨b, value⟩ := sorted e List.mem_cons_self
      cases model.reachesDisjunct sound first value
      exact ⟨e, List.mem_cons_self, value⟩
    · obtain ⟨d, mem, holds⟩ := model.reachesSomeDisjunct sound later fun d mem =>
        sorted d (List.mem_cons_of_mem e mem)
      exact ⟨d, List.mem_cons_of_mem e mem, holds⟩
end

mutual
theorem clauseImplies (model : Model T) : ∀ {a b : Expr},
    Rule.clauseImplies a b = true → Implies T a b
  | .op o ds, b, h => by
    intro sat c value
    cases o
    case or =>
      rw [Rule.clauseImplies] at h
      refine model.reachesDisjunct (fun e reached c value => ?_) h value
      rcases Bool.or_eq_true _ _ ▸ reached with direct | each
      · exact model.directlyImplies direct sat c value
      · -- the disjunct that is true implies the conclusion, as all do
        obtain ⟨d, mem, holds⟩ := (model.or sat).2.1 rfl
        exact model.allImply each d mem holds c value
    all_goals
      simp only [Rule.clauseImplies] at h
      exact model.reachesDisjunct
        (fun e reached c value => model.directlyImplies reached sat c value) h value
  | .ident _, b, h | .num _, b, h | .bool _, b, h | .not _, b, h | .neg _, b, h
  | .call _ _, b, h | .index _ _, b, h | .member _ _, b, h => by
    intro sat c value
    simp only [Rule.clauseImplies] at h
    exact model.reachesDisjunct
      (fun e reached c value => model.directlyImplies reached sat c value) h value

theorem allImply (model : Model T) : ∀ {as : List Expr} {b : Expr},
    Rule.allImply as b = true → ∀ a ∈ as, Implies T a b
  | [], _, _, a, mem => by cases mem
  | d :: ds, b, h, a, mem => by
    rw [Rule.allImply, Bool.and_eq_true] at h
    rcases List.mem_cons.1 mem with same | later
    · exact same ▸ model.clauseImplies h.1
    · exact model.allImply h.2 a later
end

theorem clauseSubsumption (model : Model T) {a b : Expr}
    (h : Rule.clauseSubsumption a b = true) : Implies T a b := by
  simp only [Rule.clauseSubsumption, List.all_eq_true, List.any_eq_true] at h
  intro sat c value
  obtain ⟨sorted, goals⟩ := model.operands_and value
  refine goals.2 fun goal mem => ?_
  obtain ⟨premise, premiseMem, implies⟩ := h goal mem
  obtain ⟨b, value⟩ := sorted goal mem
  have holds : T premise true := (model.operands_and sat).2.1 rfl premise premiseMem
  cases model.clauseImplies implies holds b value
  exact value

/-- What a rule claims holds in every model. -/
theorem implies (model : Model T) {r : Rule} (known : r ∈ Rule.all) {a b : Expr}
    (h : r.implies a b = true) : Implies T a b := by
  simp only [Rule.all, List.mem_cons, List.not_mem_nil, or_false] at known
  rcases known with rfl | rfl | rfl | rfl | rfl
  · exact model.relational h
  · exact model.bound h
  · exact model.conjunctionElimination h
  · exact model.disjunctionIntroduction h
  · exact model.clauseSubsumption h

end Model

/-- The trees that an interpretation makes true or false. -/
theorem model_of_exact (exact : I.Exact) : Model fun e b => I.value? e = some (.bool b) where
  unique value value' := Value.bool.inj (Option.some.inj (value.symm.trans value'))
  and := value?_and
  or := value?_or
  relational := relationalStrength_sound
  bound := literalBound_sound exact

/-- No rule claims a false implication. -/
theorem implies_sound (exact : I.Exact) {r : Rule} (known : r ∈ Rule.all) {a b : Expr}
    (h : r.implies a b = true) : I.Implies a b :=
  (model_of_exact exact).implies known h

end Rule
end PredicateStrength
