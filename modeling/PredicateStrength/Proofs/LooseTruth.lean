import Mathlib
import PredicateStrength.Proofs.Loose
import PredicateStrength.Proofs.Poly.Identity

/-!
# Trees in loose models

A tree has the truth value of its formula. Swapping the sides of a comparison or moving a literal
leaves the primitive polynomial as it is, so a comparison is one of numbers also in a loose model:
the polynomial has the value that its primitive part has there.

Main statements: `Loose.value_neg`, `Loose.value_sub_const` and `TruthIn.relation`.
-/
namespace PredicateStrength

variable {d : Domain}

namespace Loose

variable {L : Loose d} {p q : Poly}

/-- The value of a polynomial: its primitive part has the value that the model gives it. -/
def value (L : Loose d) (p : Poly) : Rat :=
  match p.withoutConstant.primitive? with
  | none => p.constantTerm
  | some (k, linear) => k * L.number linear + p.constantTerm

theorem value_neg (hp : p.Ordered) : L.value (-p) = -L.value p := by
  rw [value, value, Poly.withoutConstant_neg, Poly.primitive?_neg hp.withoutConstant,
    Poly.constantTerm_neg hp]
  cases p.withoutConstant.primitive? with
  | none => rfl
  | some split =>
    dsimp only [Option.map_some]
    ring

theorem value_sub_const (hp : p.Ordered) (c : Rat) : L.value (p - .const c) = L.value p - c := by
  rw [value, value, Poly.withoutConstant_sub_const hp, Poly.constantTerm_sub_const hp]
  cases p.withoutConstant.primitive? with
  | none => rfl
  | some split => exact (add_sub_assoc _ _ _).symm

/-- A comparison holds in a loose model where it holds of the value of the difference. -/
theorem holdsIn_ofComparison {o : Operator} (rel : o.isRelational = true) (hp : p.Ordered)
    (hq : q.Ordered) :
    (Constraint.ofComparison o p q).HoldsIn L ↔ relate o (L.value (p - q)) 0 = true := by
  rw [Constraint.ofComparison, value]
  cases primitive : (p - q).withoutConstant.primitive? with
  | none =>
    rw [← comparesToZero_eq]
    exact Formula.holdsIn_const
  | some split =>
    obtain ⟨k, linear⟩ := split
    dsimp only
    obtain ⟨hk, -⟩ := Poly.primitive?_eq_some (hp.sub hq).withoutConstant primitive
    have rel' : (if k < 0 then o.mirrored else o).isRelational = true := by
      split
      · cases o <;> first | rfl | cases rel
      · exact rel
    rw [Constraint.relate_scale o hk, ← Bound.admits_ofComparison rel']
    cases Bound.ofComparison (if k < 0 then o.mirrored else o) (-(p - q).constantTerm / k) with
    | inl b => exact Formula.holdsIn_const
    | inr bound => exact Formula.holdsIn_constraint

end Loose

namespace Conversion

/-- A literal is converted to the constant that it is. -/
theorem term_literalValue? : ∀ {e : Expr} {v : Rat} {p : Poly}, e.literalValue? = some v →
    (term e).result = .ok p → p = .const v
  | .num digits, v, p, literal, h => by
    have denoted : Numeral.value? digits = some v := literal
    rw [term, numeral, denoted] at h
    cases h
    rfl
  | .neg e, v, p, literal, h => by
    obtain ⟨u, inner, rfl⟩ := Option.map_eq_some_iff.1 literal
    obtain ⟨q, result, h⟩ := Attempt.bind_eq_ok.1 h
    cases h
    rw [term_literalValue? inner result]
    refine Poly.eq_of_valueAt (Poly.ordered_const u).neg (Poly.ordered_const _) fun w => ?_
    rw [Poly.valueAt_neg]
    unfold Poly.const
    by_cases zero : u = 0
    · simp [zero, Poly.zero, Poly.valueAt]
    · simp [zero, Poly.valueAt]

/-- A literal is no truth value. -/
theorem formula_literalValue? {e : Expr} {v : Rat} (literal : e.literalValue? = some v)
    {f : Formula} : (formula e).result ≠ .ok f := by
  cases e with
  | num | neg => rintro ⟨⟩
  | _ => cases literal

end Conversion

open Conversion

/-- The truth value of the tree's formula in a loose model. -/
def TruthIn (L : Loose d) (e : Expr) (b : Bool) : Prop :=
  ∃ f, (formula e).result = .ok f ∧ (f.HoldsIn L ↔ b = true)

variable {L : Loose d}

namespace TruthIn

theorem of_formula {e : Expr} {f : Formula} (h : (formula e).result = .ok f) :
    ∃ b, (f.HoldsIn L ↔ b = true) ∧ TruthIn L e b := by
  classical exact ⟨decide (f.HoldsIn L), by simp, f, h, by simp⟩

theorem unique {e : Expr} {b c : Bool} (hb : TruthIn L e b) (hc : TruthIn L e c) : b = c := by
  obtain ⟨f, result, holds⟩ := hb
  obtain ⟨g, result', holds'⟩ := hc
  cases result.symm.trans result'
  exact Bool.eq_iff_iff.2 (holds.symm.trans holds')

/-- The formulas of operands. -/
theorem operands {es : List Expr} {fs : List Formula} (h : (formulas es).result = .ok fs) :
    (∀ e ∈ es, ∃ b, TruthIn L e b) ∧
      ((∀ f ∈ fs, f.HoldsIn L) ↔ ∀ e ∈ es, TruthIn L e true) ∧
      ((∃ f ∈ fs, f.HoldsIn L) ↔ ∃ e ∈ es, TruthIn L e true) := by
  induction es generalizing fs with
  | nil =>
    cases h
    simp
  | cons e es ih =>
    obtain ⟨f, result, h⟩ := Attempt.bind_eq_ok.1 h
    obtain ⟨gs, later, h⟩ := Attempt.bind_eq_ok.1 h
    cases h
    obtain ⟨each, all, any⟩ := ih later
    have first : TruthIn L e true ↔ f.HoldsIn L :=
      ⟨fun ⟨g, result', holds⟩ => by
        cases result.symm.trans result'
        exact holds.2 rfl, fun holds => ⟨f, result, by simpa using holds⟩⟩
    have here : ∃ b, TruthIn L e b := (of_formula result).imp fun _ => And.right
    refine ⟨List.forall_mem_cons.2 ⟨here, each⟩, ?_, ?_⟩
    · rw [List.forall_mem_cons, List.forall_mem_cons, all, first]
    · simp only [List.exists_mem_cons_iff, any, first]

theorem and {es : List Expr} {c : Bool} (h : TruthIn L (.op .and es) c) :
    (∀ e ∈ es, ∃ b, TruthIn L e b) ∧ (c = true ↔ ∀ e ∈ es, TruthIn L e true) := by
  obtain ⟨f, result, holds⟩ := h
  obtain ⟨fs, each, result⟩ := Attempt.bind_eq_ok.1 result
  cases result
  obtain ⟨sorted, all, -⟩ := operands (L := L) each
  exact ⟨sorted, by rw [← holds, Formula.holdsIn_and, all]⟩

theorem or {es : List Expr} {c : Bool} (h : TruthIn L (.op .or es) c) :
    (∀ e ∈ es, ∃ b, TruthIn L e b) ∧ (c = true ↔ ∃ e ∈ es, TruthIn L e true) := by
  obtain ⟨f, result, holds⟩ := h
  obtain ⟨fs, each, result⟩ := Attempt.bind_eq_ok.1 result
  cases result
  obtain ⟨sorted, -, any⟩ := operands (L := L) each
  exact ⟨sorted, by rw [← holds, Formula.holdsIn_or, any]⟩

/-- Operands with truth values have formulas. -/
theorem exists_formulas {es : List Expr} (each : ∀ e ∈ es, ∃ b, TruthIn L e b) :
    ∃ fs, (formulas es).result = .ok fs := by
  induction es with
  | nil => exact ⟨[], rfl⟩
  | cons e es ih =>
    obtain ⟨⟨_, f, first, -⟩, rest⟩ := List.forall_mem_cons.1 each
    obtain ⟨fs, later⟩ := ih rest
    exact ⟨f :: fs, Attempt.bind_eq_ok.2 ⟨f, first, Attempt.bind_eq_ok.2 ⟨fs, later, rfl⟩⟩⟩

/-- Operands that have the truth values that they have under an interpretation. -/
theorem operands_of_values {I : Interp Int} {es : List Expr}
    (sorted : ∀ e ∈ es, ∃ b, I.value? e = some (.bool b))
    (same : ∀ e ∈ es, ∀ {b}, I.value? e = some (.bool b) → TruthIn L e b) :
    ∃ fs, (formulas es).result = .ok fs ∧
      ((∀ f ∈ fs, f.HoldsIn L) ↔ ∀ e ∈ es, I.Satisfies e) ∧
      ((∃ f ∈ fs, f.HoldsIn L) ↔ ∃ e ∈ es, I.Satisfies e) := by
  obtain ⟨fs, result⟩ := exists_formulas fun e mem => (sorted e mem).imp fun _ => same e mem
  obtain ⟨-, all, any⟩ := operands (L := L) result
  have agree : ∀ e ∈ es, (TruthIn L e true ↔ I.Satisfies e) := by
    intro e mem
    refine ⟨fun holds => ?_, same e mem⟩
    obtain ⟨b, value⟩ := sorted e mem
    rw [Interp.Satisfies, value, (same e mem value).unique holds]
  refine ⟨fs, result, all.trans (forall₂_congr agree), any.trans ?_⟩
  exact exists_congr fun e => and_congr_right fun mem => agree e mem

theorem agreement {f g : Formula} :
    (agreement f g).HoldsIn L ↔ (f.HoldsIn L ↔ g.HoldsIn L) := by
  simp only [Conversion.agreement, Formula.holdsIn_or, Formula.holdsIn_and, Formula.holdsIn_not,
    List.mem_cons, List.not_mem_nil, or_false, forall_eq_or_imp, forall_eq, exists_eq_or_imp,
    exists_eq_left]
  tauto

/-- What a comparison compares: truth values, for (in)equality only, or numbers. -/
theorem relation {o : Operator} (rel : o.isRelational = true) {x y : Expr} {c : Bool}
    (h : TruthIn L (.op o [x, y]) c) :
    (((o = .eq ∨ o = .ne) ∧ (x.isBoolean = true ∨ y.isBoolean = true)) ∧
      ∃ b b', TruthIn L x b ∧ TruthIn L y b' ∧ c = if o = .eq then b == b' else !(b == b')) ∨
    ∃ p q, (term x).result = .ok p ∧ (term y).result = .ok q ∧
      c = relate o (L.value (p - q)) 0 := by
  obtain ⟨h', result, holds⟩ := h
  rw [formula_relation rel] at result
  split at result
  · next shapes =>
    obtain ⟨f, left, result⟩ := Attempt.bind_eq_ok.1 result
    obtain ⟨g, right, result⟩ := Attempt.bind_eq_ok.1 result
    obtain ⟨b, hb, first⟩ := of_formula (L := L) left
    obtain ⟨b', hb', second⟩ := of_formula (L := L) right
    refine .inl ⟨shapes, b, b', first, second, ?_⟩
    have same : (Conversion.agreement f g).HoldsIn L ↔ (b == b') = true := by
      rw [agreement, hb, hb']
      cases b <;> cases b' <;> simp
    cases result
    split at holds
    · next eq => rw [if_pos eq, Bool.eq_iff_iff, ← holds, same]
    · next ne => rw [if_neg ne, Bool.eq_iff_iff, ← holds, Formula.holdsIn_not, same]; simp
  · obtain ⟨p, left, result⟩ := Attempt.bind_eq_ok.1 result
    obtain ⟨q, right, result⟩ := Attempt.bind_eq_ok.1 result
    cases result
    rw [Loose.holdsIn_ofComparison rel (wellFormed_term left).here (wellFormed_term right).here]
      at holds
    exact .inr ⟨p, q, left, right, (Bool.eq_iff_iff.2 holds).symm⟩

end TruthIn

end PredicateStrength
