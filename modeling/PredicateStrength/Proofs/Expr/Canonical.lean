import Mathlib
import PredicateStrength.Proofs.Expr.Meaning

/-!
# The canonical form means the same

A tree refines another if it names the same place wherever the other has a meaning, or computes
the same value. Refinement passes through every constructor, so a rule that refines every node may
be carried through a tree. Each of the nine passes is such a rule: the idioms need their tables to
be respected, the subtraction shift needs an ordered ring, all others hold of any values.

Main statements: the canonical form refines the tree (`Interp.Lawful.refines_canonical`), so a
well-sorted tree keeps its value (`Interp.canonical_keeps_value`).
-/
namespace PredicateStrength

variable {K : Type} [CommRing K] [LinearOrder K]

namespace Interp

variable {I : Interp K}

/-- `f` means what `e` means, wherever `e` has a meaning. Of a truth value only the value counts,
since nothing can be read from it. -/
def Refines (I : Interp K) (e f : Expr) : Prop :=
  ∀ p, I.place? e = some p →
    ∃ q, I.place? f = some q ∧ I.valueAt q = I.valueAt p ∧ (p.isBase = true → q = p)

theorem Refines.refl (e : Expr) : I.Refines e e := fun p h => ⟨p, h, rfl, fun _ => rfl⟩

theorem Refines.trans {e f g : Expr} (h : I.Refines e f) (k : I.Refines f g) : I.Refines e g := by
  intro p place
  obtain ⟨q, place, value, same⟩ := h p place
  obtain ⟨r, place, value', same'⟩ := k q place
  refine ⟨r, place, value'.trans value, fun base => ?_⟩
  cases same base
  exact same' base

theorem Refines.of_place {e f : Expr} (h : ∀ p, I.place? e = some p → I.place? f = some p) :
    I.Refines e f := fun p place => ⟨p, h p place, rfl, fun _ => rfl⟩

theorem Refines.value {e f : Expr} (h : I.Refines e f) {v : Value K} (value : I.value? e = some v) :
    I.value? f = some v := by
  obtain ⟨p, place, rfl⟩ := Option.map_eq_some_iff.1 value
  obtain ⟨q, place, same, -⟩ := h p place
  exact Option.map_eq_some_iff.2 ⟨q, place, same⟩

theorem place?_op {o : Operator} {args : List Expr} :
    I.place? (.op o args) = (I.values? args).bind fun vs => (I.operate o vs).map .value := rfl

theorem place?_op_eq_some {o : Operator} {args : List Expr} {p : Place K} :
    I.place? (.op o args) = some p ↔
      ∃ vs v, I.values? args = some vs ∧ I.operate o vs = some v ∧ p = .value v := by
  rw [place?_op]
  constructor
  · intro h
    obtain ⟨vs, values, h⟩ := Option.bind_eq_some_iff.1 h
    obtain ⟨v, value, rfl⟩ := Option.map_eq_some_iff.1 h
    exact ⟨vs, v, values, value, rfl⟩
  · rintro ⟨vs, v, values, value, rfl⟩
    rw [values, Option.bind_some, value, Option.map_some]

theorem value?_op_eq_some {o : Operator} {args : List Expr} {v : Value K} :
    I.value? (.op o args) = some v ↔ ∃ vs, I.values? args = some vs ∧ I.operate o vs = some v := by
  constructor
  · intro h
    obtain ⟨p, place, rfl⟩ := Option.map_eq_some_iff.1 h
    obtain ⟨vs, v, values, value, rfl⟩ := place?_op_eq_some.1 place
    exact ⟨vs, values, value⟩
  · rintro ⟨vs, values, value⟩
    exact Option.map_eq_some_iff.2 ⟨.value v, place?_op_eq_some.2 ⟨vs, v, values, value, rfl⟩, rfl⟩

theorem value?_not_eq_some {e : Expr} {v : Value K} :
    I.value? (.not e) = some v ↔ ∃ b, I.value? e = some (.bool b) ∧ v = .bool !b := by
  show ((I.place? e).bind fun p => (I.valueAt p).not?.map Place.value).map I.valueAt = some v ↔ _
  rw [value?]
  cases I.place? e with
  | none => simp
  | some p => cases h : I.valueAt p <;> simp [h, Value.not?, eq_comm]

theorem value?_neg_eq_some {e : Expr} {v : Value K} :
    I.value? (.neg e) = some v ↔ ∃ x, I.value? e = some (.num x) ∧ v = .num (-x) := by
  show ((I.place? e).bind fun p => (I.valueAt p).neg?.map Place.value).map I.valueAt = some v ↔ _
  rw [value?]
  cases I.place? e with
  | none => simp
  | some p => cases h : I.valueAt p <;> simp [h, Value.neg?, eq_comm]

theorem values?_cons {e : Expr} {es : List Expr} :
    I.values? (e :: es) = (I.value? e).bind fun v => (I.values? es).map (v :: ·) := by
  show ((I.place? e).bind fun p => (I.values? es).map fun vs => I.valueAt p :: vs) = _
  rw [value?]
  cases I.place? e <;> rfl

theorem values?_eq_some_iff {es : List Expr} {vs : List (Value K)} :
    I.values? es = some vs ↔ List.Forall₂ (fun e v => I.value? e = some v) es vs := by
  induction es generalizing vs with
  | nil =>
    show some [] = some vs ↔ _
    simp [eq_comm]
  | cons e es ih =>
    rw [values?_cons]
    constructor
    · intro h
      obtain ⟨v, value, h⟩ := Option.bind_eq_some_iff.1 h
      obtain ⟨vs, values, rfl⟩ := Option.map_eq_some_iff.1 h
      exact .cons value (ih.1 values)
    · rintro (_ | ⟨value, values⟩)
      rw [value, Option.bind_some, ih.2 values, Option.map_some]

theorem values?_pair {a b : Expr} {vs : List (Value K)} :
    I.values? [a, b] = some vs ↔
      ∃ v w, I.value? a = some v ∧ I.value? b = some w ∧ vs = [v, w] := by
  rw [values?_eq_some_iff]
  constructor
  · rintro (_ | ⟨ha, _ | ⟨hb, _ | _⟩⟩)
    exact ⟨_, _, ha, hb, rfl⟩
  · rintro ⟨v, w, ha, hb, rfl⟩
    exact .cons ha (.cons hb .nil)

theorem value?_binary_eq_some {o : Operator} {a b : Expr} {u : Value K} :
    I.value? (.op o [a, b]) = some u ↔
      ∃ v w, I.value? a = some v ∧ I.value? b = some w ∧ I.operate o [v, w] = some u := by
  rw [value?_op_eq_some]
  constructor
  · rintro ⟨vs, values, operation⟩
    obtain ⟨v, w, ha, hb, rfl⟩ := values?_pair.1 values
    exact ⟨v, w, ha, hb, operation⟩
  · rintro ⟨v, w, ha, hb, operation⟩
    exact ⟨[v, w], values?_pair.2 ⟨v, w, ha, hb, rfl⟩, operation⟩

/-- The operator alone tells the sort of what it computes. -/
theorem isBool_operate {o : Operator} {vs : List (Value K)} {v : Value K}
    (h : I.operate o vs = some v) : v.isBool = (o.isRelational || o.isLogical) := by
  cases o <;> simp only [operate] at h
  case and | or | add | mul =>
    split at h <;> cases h
    rfl
  all_goals
    split at h
    all_goals cases h
    all_goals rfl

/-- An operator that the interpretation is free to choose takes two numbers. -/
theorem operate_free {o : Operator} (free : o.isFree = true) {vs : List (Value K)} {v : Value K}
    (h : I.operate o vs = some v) :
    ∃ x y, vs = [.num x, .num y] ∧ v = .num (I.arith o x y) := by
  cases o <;> simp only [Operator.isFree, Bool.false_eq_true] at free
  all_goals
    simp only [operate] at h
    split at h <;> cases h
    exact ⟨_, _, rfl, rfl⟩

theorem place?_of_isBoolean {e : Expr} (root : e.isBoolean = true) {p : Place K}
    (h : I.place? e = some p) : ∃ b, p = .value (.bool b) := by
  cases e with
  | bool b => exact ⟨b, (Option.some.inj h).symm⟩
  | not e =>
    obtain ⟨q, -, h⟩ := Option.bind_eq_some_iff.1 h
    cases value : I.valueAt q <;> rw [value] at h <;> cases h
    exact ⟨_, rfl⟩
  | op o args =>
    obtain ⟨vs, v, -, operation, rfl⟩ := place?_op_eq_some.1 h
    obtain ⟨b, rfl⟩ := Value.isBool_iff_exists.1 ((isBool_operate operation).trans root)
    exact ⟨b, rfl⟩
  | _ => cases root

/-- From a tree with a truth value at its root nothing can be read, so only the value of what
replaces it counts. -/
theorem Refines.of_isBoolean {e f : Expr} (root : e.isBoolean = true)
    (h : ∀ b, I.value? e = some (.bool b) → I.value? f = some (.bool b)) : I.Refines e f := by
  intro p place
  obtain ⟨b, rfl⟩ := place?_of_isBoolean root place
  obtain ⟨q, found, value⟩ := Option.map_eq_some_iff.1 (h b (by rw [value?, place]; rfl))
  exact ⟨q, found, value, by simp [Place.isBase]⟩

section BottomUp

variable {rule : Expr → Expr}

theorem refines_unary {c : Expr → Expr} {f : Value K → Option (Value K)}
    (hc : ∀ e, I.place? (c e) = (I.place? e).bind fun p => (f (I.valueAt p)).map .value)
    {e e' : Expr} (h : I.Refines e e') : I.Refines (c e) (c e') := by
  refine .of_place fun p place => ?_
  rw [hc] at place ⊢
  obtain ⟨q, place, value⟩ := Option.bind_eq_some_iff.1 place
  obtain ⟨r, place, same, -⟩ := h q place
  rw [place, Option.bind_some, same, value]

theorem refines_call {f f' : Expr} {args args' : List Expr} (h : I.Refines f f')
    (k : ∀ vs, I.values? args = some vs → I.values? args' = some vs) :
    I.Refines (.call f args) (.call f' args') := by
  refine .of_place fun p place => ?_
  obtain ⟨q, place, rest⟩ := Option.bind_eq_some_iff.1 place
  obtain ⟨vs, values, call⟩ := Option.bind_eq_some_iff.1 rest
  obtain ⟨r, place, -, same⟩ := h q place
  cases same (Place.call?_isBase call)
  show ((I.place? f').bind fun p => (I.values? args').bind fun vs => p.call? I.idiom vs) = some p
  rw [place, Option.bind_some, k vs values, Option.bind_some, call]

theorem refines_index {base base' key key' : Expr} (h : I.Refines base base')
    (k : I.Refines key key') : I.Refines (.index base key) (.index base' key') := by
  refine .of_place fun p place => ?_
  obtain ⟨q, place, rest⟩ := Option.bind_eq_some_iff.1 place
  obtain ⟨r, keyPlace, index⟩ := Option.bind_eq_some_iff.1 rest
  obtain ⟨q', place, -, same⟩ := h q place
  obtain ⟨r', keyPlace, value, -⟩ := k r keyPlace
  cases same (Place.index?_eq_some.1 index).1
  show ((I.place? base').bind fun p => (I.place? key').bind fun k => p.index? (I.valueAt k)) =
    some p
  rw [place, Option.bind_some, keyPlace, Option.bind_some, value, index]

theorem refines_member {base base' : Expr} {field : String} (h : I.Refines base base') :
    I.Refines (.member base field) (.member base' field) := by
  refine .of_place fun p place => ?_
  obtain ⟨q, place, member⟩ := Option.bind_eq_some_iff.1 place
  obtain ⟨q', place, -, same⟩ := h q place
  cases same (Place.member?_eq_some.1 member).1
  show ((I.place? base').bind fun p => p.member? field) = some p
  rw [place, Option.bind_some, member]

theorem refines_op {o : Operator} {args args' : List Expr}
    (h : ∀ vs, I.values? args = some vs → I.values? args' = some vs) :
    I.Refines (.op o args) (.op o args') := by
  refine .of_place fun p place => ?_
  obtain ⟨vs, v, values, value, rfl⟩ := place?_op_eq_some.1 place
  exact place?_op_eq_some.2 ⟨vs, v, h vs values, value, rfl⟩

mutual
/-- A rule that refines every node refines the whole tree. -/
theorem refines_bottomUp (hrule : ∀ e, I.Refines e (rule e)) :
    ∀ e, I.Refines e (Expr.bottomUp rule e)
  | .ident _ => hrule _
  | .num _ => hrule _
  | .bool _ => hrule _
  | .not e => (refines_unary (fun _ => rfl) (refines_bottomUp hrule e)).trans (hrule _)
  | .neg e => (refines_unary (fun _ => rfl) (refines_bottomUp hrule e)).trans (hrule _)
  | .op _ args => (refines_op (values_bottomUpAll hrule args)).trans (hrule _)
  | .call f args =>
    (refines_call (refines_bottomUp hrule f) (values_bottomUpAll hrule args)).trans (hrule _)
  | .index base key =>
    (refines_index (refines_bottomUp hrule base) (refines_bottomUp hrule key)).trans (hrule _)
  | .member base _ => (refines_member (refines_bottomUp hrule base)).trans (hrule _)

theorem values_bottomUpAll (hrule : ∀ e, I.Refines e (rule e)) : ∀ (es : List Expr) vs,
    I.values? es = some vs → I.values? (Expr.bottomUpAll rule es) = some vs
  | [], _, values => values
  | e :: es, vs, values => by
    rw [values?_cons] at values
    obtain ⟨v, value, values⟩ := Option.bind_eq_some_iff.1 values
    obtain ⟨ws, rest, rfl⟩ := Option.map_eq_some_iff.1 values
    rw [Expr.bottomUpAll, values?_cons, (refines_bottomUp hrule e).value value, Option.bind_some,
      values_bottomUpAll hrule es ws rest, Option.map_some]
end

end BottomUp

theorem operate_eq_none {o : Operator} (rel : o.isRelational = true) {vs : List (Value K)}
    (h : vs.length ≠ 2) : I.operate o vs = none := by
  match vs with
  | [] => cases o <;> first | rfl | simp [Operator.isRelational] at rel
  | [v] => cases o <;> first | (cases v <;> rfl) | simp [Operator.isRelational] at rel
  | [_, _] => exact absurd rfl h
  | v :: w :: _ :: _ =>
    cases o <;> first | (cases v <;> cases w <;> rfl) | simp [Operator.isRelational] at rel

theorem operate_swap {o : Operator} (v w : Value K) :
    o = .eq ∨ o = .ne → I.operate o [v, w] = I.operate o [w, v] := by
  rintro (rfl | rfl) <;> cases v <;> cases w <;>
    simp [operate, relate, eq_comm, Bool.beq_comm, bne_comm]

theorem operate_perm {o : Operator} (comm : o.isCommutative = true) {vs ws : List (Value K)}
    (h : vs.Perm ws) : I.operate o vs = I.operate o ws := by
  have equality : ∀ p : Operator, p = .eq ∨ p = .ne → I.operate p vs = I.operate p ws := by
    intro p isEq
    have rel : p.isRelational = true := by rcases isEq with rfl | rfl <;> rfl
    match ws, h with
    | [v, w], h =>
      rcases List.perm_pair.1 h with rfl | rfl
      · rfl
      · exact operate_swap w v isEq
    | [], h | [_], h | _ :: _ :: _ :: _, h =>
      rw [operate_eq_none rel (by simp [h.length_eq]), operate_eq_none rel (by simp)]
  cases o <;> simp only [Operator.isCommutative, Bool.false_eq_true] at comm
  case and => simp only [operate, h.all_eq]
  case or => simp only [operate, h.all_eq, h.any_eq]
  case add => simp only [operate, h.all_eq, (h.map _).sum_eq]
  case mul => simp only [operate, h.all_eq, h.isEmpty_eq, (h.map _).prod_eq]
  case eq => exact equality _ (.inl rfl)
  case ne => exact equality _ (.inr rfl)

theorem operate_append {o : Operator} (assoc : o.isAssociative = true) (us vs : List (Value K)) :
    I.operate o (us ++ vs) =
      (I.operate o us).bind fun u => (I.operate o vs).bind fun v => I.operate o [u, v] := by
  cases o <;> simp only [Operator.isAssociative, Bool.false_eq_true] at assoc
  case and | or =>
    cases hu : us.all Value.isBool <;> cases hv : vs.all Value.isBool <;>
      simp [operate, hu, hv, Value.isBool, Value.truth]
  case add =>
    cases hu : us.all Value.isNum <;> cases hv : vs.all Value.isNum <;>
      simp [operate, hu, hv, Value.isNum, Value.number]

theorem operate_singleton {o : Operator} (assoc : o.isAssociative = true) {vs : List (Value K)}
    {v : Value K} (h : I.operate o vs = some v) : I.operate o [v] = some v := by
  cases o <;> simp only [Operator.isAssociative, Bool.false_eq_true] at assoc
  all_goals
    simp only [operate, Option.ite_none_right_eq_some, Option.some.injEq] at h
    obtain ⟨-, rfl⟩ := h
    simp [operate, Value.isBool, Value.isNum, Value.truth, Value.number]

theorem values?_append {es fs : List Expr} {vs ws : List (Value K)}
    (h : I.values? es = some vs) (k : I.values? fs = some ws) :
    I.values? (es ++ fs) = some (vs ++ ws) := by
  rw [values?_eq_some_iff] at h k ⊢
  exact List.rel_append h k

/-- The operands of an operand compute what the operand does. -/
theorem values?_operands {o : Operator} (assoc : o.isAssociative = true) {e : Expr} {v : Value K}
    (value : I.value? e = some v) :
    ∃ us, I.values? (e.operands o) = some us ∧ I.operate o us = I.operate o [v] := by
  have alone : I.values? [e] = some [v] := values?_eq_some_iff.2 (.cons value .nil)
  cases e with
  | op p args =>
    by_cases same : p = o
    · cases same
      obtain ⟨us, values, operation⟩ := value?_op_eq_some.1 value
      exact ⟨us, by rw [Expr.operands, if_pos rfl, values],
        operation.trans (operate_singleton assoc operation).symm⟩
    · exact ⟨[v], by rw [Expr.operands, if_neg same, alone], rfl⟩
  | _ => exact ⟨[v], alone, rfl⟩

theorem values?_splice {o : Operator} (assoc : o.isAssociative = true) {es : List Expr}
    {vs : List (Value K)} (values : I.values? es = some vs) :
    ∃ us, I.values? (Canonical.splice o es) = some us ∧ I.operate o us = I.operate o vs := by
  induction es generalizing vs with
  | nil =>
    cases values
    exact ⟨[], rfl, rfl⟩
  | cons e es ih =>
    rw [values?_cons] at values
    obtain ⟨v, value, values⟩ := Option.bind_eq_some_iff.1 values
    obtain ⟨ws, rest, rfl⟩ := Option.map_eq_some_iff.1 values
    obtain ⟨us, first, same⟩ := values?_operands assoc value
    obtain ⟨us', later, same'⟩ := ih rest
    refine ⟨us ++ us', ?_, ?_⟩
    · rw [Canonical.splice, List.flatMap_cons]
      exact values?_append first later
    · rw [operate_append assoc, same, same', ← operate_append assoc, List.singleton_append]

theorem values?_sorted {es : List Expr} {vs : List (Value K)} (values : I.values? es = some vs) :
    ∃ us, I.values? (Expr.sorted es) = some us ∧ us.Perm vs := by
  obtain ⟨us, values, perm⟩ :=
    List.perm_comp_forall₂ (Sorting.sort_perm Expr.cmp es) (values?_eq_some_iff.1 values)
  exact ⟨us, values?_eq_some_iff.2 values, perm⟩

theorem refines_op_of_operate {o : Operator} {args args' : List Expr}
    (h : ∀ vs, I.values? args = some vs →
      ∃ us, I.values? args' = some us ∧ I.operate o us = I.operate o vs) :
    I.Refines (.op o args) (.op o args') := by
  refine .of_place fun p place => ?_
  obtain ⟨vs, v, values, value, rfl⟩ := place?_op_eq_some.1 place
  obtain ⟨us, values, same⟩ := h vs values
  exact place?_op_eq_some.2 ⟨us, v, values, same.trans value, rfl⟩

theorem refines_flatten (e : Expr) : I.Refines e (Canonical.flatten e) := by
  cases e with
  | op o args =>
    rw [Canonical.flatten]
    split
    · next assoc => exact refines_op_of_operate fun vs => values?_splice assoc
    · exact .refl _
  | _ => exact .refl _

theorem refines_sortCommutative (e : Expr) : I.Refines e (Canonical.sortCommutative e) := by
  cases e with
  | op o args =>
    rw [Canonical.sortCommutative]
    split
    · next comm =>
      refine refines_op_of_operate fun vs values => ?_
      obtain ⟨us, values, perm⟩ := values?_sorted values
      exact ⟨us, values, operate_perm comm perm⟩
    · exact .refl _
  | _ => exact .refl _

theorem refines_normalizeSum (e : Expr) : I.Refines e (Canonical.normalizeSum e) := by
  unfold Canonical.normalizeSum
  split
  · refine refines_op_of_operate fun vs values => ?_
    obtain ⟨us, values, same⟩ := values?_splice (o := .add) rfl values
    obtain ⟨ws, values, perm⟩ := values?_sorted values
    exact ⟨ws, values, (operate_perm rfl perm).trans same⟩
  · exact .refl _

theorem refines_swap {o : Operator} (isEq : o = .eq ∨ o = .ne) (a b : Expr) :
    I.Refines (.op o [a, b]) (.op o [b, a]) := by
  refine refines_op_of_operate fun vs values => ?_
  obtain ⟨v, w, ha, hb, rfl⟩ := values?_pair.1 values
  exact ⟨[w, v], values?_pair.2 ⟨w, v, hb, ha, rfl⟩, operate_swap w v isEq⟩

theorem refines_orderEquality (e : Expr) : I.Refines e (Canonical.orderEquality e) := by
  unfold Canonical.orderEquality
  split
  · split
    · exact refines_swap (.inl rfl) _ _
    · exact .refl _
  · split
    · exact refines_swap (.inr rfl) _ _
    · exact .refl _
  · exact .refl _

theorem refines_dropDoubleNegation (e : Expr) : I.Refines e (Canonical.dropDoubleNegation e) := by
  unfold Canonical.dropDoubleNegation
  split
  · next e =>
    refine .of_isBoolean rfl fun b value => ?_
    obtain ⟨c, value, same⟩ := value?_not_eq_some.1 value
    obtain ⟨d, value', same'⟩ := value?_not_eq_some.1 value
    cases same
    cases same'
    rw [value', Bool.not_not]
  · exact .refl _

/-- An (in)equality with `b` is the other operand or its negation. -/
theorem value?_equality_bool {o : Operator} (isEq : o = .eq ∨ o = .ne) {b c : Bool} {e : Expr}
    (value : I.value? (.op o [.bool b, e]) = some (.bool c)) :
    I.value? e = some (.bool ((b == c) == (o = .eq))) := by
  obtain ⟨v, w, hb, he, operation⟩ := value?_binary_eq_some.1 value
  cases hb
  rw [he]
  rcases isEq with rfl | rfl <;> cases w <;>
    simp only [valueAt_value, operate, Option.some.injEq, Value.bool.injEq, reduceCtorEq]
      at operation ⊢ <;>
    subst operation <;> cases b <;> simp

theorem refines_eq_bool (b : Bool) (e : Expr) :
    I.Refines (.op .eq [.bool b, e]) (if b then e else .not e) := by
  refine .of_isBoolean rfl fun c value => ?_
  have operand := value?_equality_bool (.inl rfl) value
  cases b
  · exact value?_not_eq_some.2 ⟨_, operand, by simp⟩
  · simpa using operand

theorem refines_ne_bool (b : Bool) (e : Expr) :
    I.Refines (.op .ne [.bool b, e]) (if b then .not e else e) := by
  refine .of_isBoolean rfl fun c value => ?_
  have operand := value?_equality_bool (.inr rfl) value
  cases b
  · simpa using operand
  · exact value?_not_eq_some.2 ⟨_, operand, by simp⟩

theorem refines_foldBoolEquality (e : Expr) : I.Refines e (Canonical.foldBoolEquality e) := by
  unfold Canonical.foldBoolEquality
  split
  · exact refines_eq_bool _ _
  · exact (refines_swap (.inl rfl) _ _).trans (refines_eq_bool _ _)
  · exact refines_ne_bool _ _
  · exact (refines_swap (.inr rfl) _ _).trans (refines_ne_bool _ _)
  · exact .refl _

/-- No idiom stands for a tree with an idiom in it. -/
theorem idiom_of_lookup {f : String} {t : Expr} (h : Canonical.localIdioms.lookup f = some t) :
    I.idiom f = some (I.place? t) := by
  have closed : ∀ entry ∈ Canonical.localIdioms,
      I.placeWith (fun _ => none) entry.2 = I.place? entry.2 := by
    intro entry mem
    simp only [Canonical.localIdioms, List.mem_cons, List.not_mem_nil, or_false] at mem
    rcases mem with rfl | rfl | rfl <;> rfl
  obtain ⟨before, after, table, -⟩ := List.lookup_eq_some_iff.1 h
  rw [idiom, h, Option.map_some, closed (f, t) (by simp [table])]

theorem refines_expandIdiom (e : Expr) : I.Refines e (Canonical.expandIdiom e) := by
  unfold Canonical.expandIdiom
  split
  · next f =>
    refine .of_place fun p place => ?_
    have call : (I.idiom f).getD (some (.call (.name f) [])) = some p := place
    cases entry : Canonical.localIdioms.lookup f with
    | none => exact place
    | some t =>
      rw [idiom_of_lookup entry, Option.getD_some] at call
      exact call
  · exact .refl _

/-- Moving subtrahends keeps the difference of the two sides. -/
theorem value?_moveSubtrahends {side other : Expr} {x y : K} (hx : I.value? side = some (.num x))
    (hy : I.value? other = some (.num y)) :
    ∃ x' y', I.value? (Canonical.moveSubtrahends side other).1 = some (.num x') ∧
      I.value? (Canonical.moveSubtrahends side other).2 = some (.num y') ∧ x' - y' = x - y := by
  induction side, other using Canonical.moveSubtrahends.induct generalizing x y with
  | case1 a b other ih =>
    obtain ⟨v, w, ha, hb, operation⟩ := value?_binary_eq_some.1 hx
    obtain ⟨x₁, x₂, rfl, rfl, rfl⟩ : ∃ x₁ x₂, v = .num x₁ ∧ w = .num x₂ ∧ x = x₁ - x₂ := by
      cases v <;> cases w <;> simp [operate] at operation
      exact ⟨_, _, rfl, rfl, operation.symm⟩
    have sum : I.value? (.binary .add other b) = some (.num (y + x₂)) :=
      value?_binary_eq_some.2 ⟨_, _, hy, hb, by simp [operate, Value.isNum, Value.number]⟩
    obtain ⟨x', y', first, second, same⟩ := ih ha sum
    exact ⟨x', y', first, second, by rw [same]; ring⟩
  | case2 side other plain =>
    rw [Canonical.moveSubtrahends]
    · exact ⟨x, y, hx, hy, rfl⟩
    · exact plain

theorem moveSubtrahends_of_bool {side : Expr} {b : Bool} (h : I.value? side = some (.bool b))
    (other : Expr) : Canonical.moveSubtrahends side other = (side, other) := by
  unfold Canonical.moveSubtrahends
  split
  · next a c =>
    obtain ⟨vs, -, operation⟩ := value?_op_eq_some.1 h
    have sort := isBool_operate operation
    cases sort
  · rfl

end Interp

/-- Between numbers a comparison depends on their difference. -/
theorem relate_eq_of_sub_eq [IsStrictOrderedRing K] (o : Operator) {x y x' y' : K}
    (h : x' - y' = x - y) : relate o x' y' = relate o x y := by
  have lt : x' < y' ↔ x < y := by rw [← sub_neg, h, sub_neg]
  have gt : y' < x' ↔ y < x := by rw [← sub_pos, h, sub_pos]
  have eq : x' = y' ↔ x = y := by rw [← sub_eq_zero, h, sub_eq_zero]
  cases o <;> simp [relate, lt, gt, eq, ← not_lt]

namespace Interp

variable {I : Interp K}

theorem operate_num {o : Operator} (rel : o.isRelational = true) (x y : K) :
    I.operate o [.num x, .num y] = some (.bool (relate o x y)) := by
  cases o <;> first | rfl | cases rel

theorem refines_shiftSubtraction [IsStrictOrderedRing K] (e : Expr) :
    I.Refines e (Canonical.shiftSubtraction e) := by
  unfold Canonical.shiftSubtraction
  split
  · next o lhs rhs =>
    split
    · next rel =>
      refine .of_isBoolean (by simp [Expr.isBoolean, rel]) fun c value => ?_
      obtain ⟨v, w, hl, hr, operation⟩ := value?_binary_eq_some.1 value
      cases v with
      | num x =>
        cases w with
        | num y =>
          obtain ⟨y₁, x₁, right, left, same⟩ := value?_moveSubtrahends hr hl
          obtain ⟨x₂, y₂, left', right', same'⟩ := value?_moveSubtrahends left right
          refine value?_binary_eq_some.2 ⟨.num x₂, .num y₂, left', right', ?_⟩
          have difference : x₂ - y₂ = x - y := by rw [same', ← neg_sub, same, neg_sub]
          rw [← operation, operate_num rel, operate_num rel, relate_eq_of_sub_eq o difference]
        | bool b => cases o <;> cases rel <;> cases operation
      | bool a =>
        cases w with
        | num y => cases o <;> cases rel <;> cases operation
        | bool b =>
          simp only [moveSubtrahends_of_bool hr, moveSubtrahends_of_bool hl]
          exact value
    · exact .refl _
  · exact .refl _

/-- The numerals for zero are zero, and a flag predicate tells whether its mask leaves a bit of
the argument, on either side of the mask. -/
structure Lawful (I : Interp K) : Prop where
  zero : ∀ digits x, Numeral.value? digits = some 0 → I.literal? digits = some x → x = 0
  flag : ∀ mask predicate, (mask, predicate) ∈ Canonical.flagIdioms →
    ∀ m, I.read (.name mask) = .num m → ∀ x,
      I.read (.call (.name predicate) [.num x]) = .bool (I.arith .bitAnd x m ≠ 0) ∧
        I.read (.call (.name predicate) [.num x]) = .bool (I.arith .bitAnd m x ≠ 0)

namespace Lawful

theorem value?_isZeroLiteral (lawful : I.Lawful) {e : Expr} (zero : e.isZeroLiteral = true)
    {v : Value K} (value : I.value? e = some v) : v = .num 0 := by
  cases e <;> simp only [Expr.isZeroLiteral, Bool.false_eq_true] at zero
  next digits =>
    obtain ⟨p, place, rfl⟩ := Option.map_eq_some_iff.1 value
    obtain ⟨x, literal, rfl⟩ := Option.map_eq_some_iff.1 place
    rw [valueAt_value, lawful.zero digits x (of_decide_eq_true zero) literal]

/-- A flag test is true where the masked value that it stands for is not zero. -/
theorem value?_flagTest? (lawful : I.Lawful) {e test : Expr}
    (h : Canonical.flagTest? e = some test) {v : Value K} (value : I.value? e = some v) :
    ∃ x, v = .num x ∧ I.value? test = some (.bool (x ≠ 0)) := by
  unfold Canonical.flagTest? at h
  split at h
  · next a b =>
    obtain ⟨va, vb, ha, hb, operation⟩ := value?_binary_eq_some.1 value
    obtain ⟨x, y, rfl, rfl, rfl⟩ :
        ∃ x y, va = .num x ∧ vb = .num y ∧ v = .num (I.arith .bitAnd x y) := by
      cases va <;> cases vb <;> simp [operate] at operation
      exact ⟨_, _, rfl, rfl, operation.symm⟩
    refine ⟨_, rfl, ?_⟩
    obtain ⟨⟨mask, predicate⟩, entry, h⟩ := List.exists_of_findSome?_eq_some h
    have test : ∀ {c : Expr} {z : K}, I.value? c = some (.num z) →
        I.value? (.apply predicate [c]) = some (I.read (.call (.name predicate) [.num z])) := by
      intro c z value
      have values : I.values? [c] = some [.num z] := values?_eq_some_iff.2 (.cons value .nil)
      show ((I.values? [c]).bind fun vs => Place.call? I.idiom (.name predicate) vs).map I.valueAt =
        some (I.read (.call (.name predicate) [.num z]))
      rw [values]
      rfl
    dsimp only at h
    split at h
    · next isMask =>
      cases h
      subst isMask
      rw [test ha, (lawful.flag mask predicate entry y (Option.some.inj hb) x).1]
    · split at h
      · next isMask =>
        cases h
        subst isMask
        rw [test hb, (lawful.flag mask predicate entry x (Option.some.inj ha) y).2]
      · cases h
  · cases h

/-- One side of the comparison is zero, the other is the operand. -/
theorem value?_comparedWithZero? (lawful : I.Lawful) {o : Operator} (isEq : o = .eq ∨ o = .ne)
    {a b e : Expr} (h : Canonical.comparedWithZero? a b = some e) {c : Bool}
    (value : I.value? (.op o [a, b]) = some (.bool c)) :
    ∃ v, I.value? e = some v ∧ I.operate o [v, .num 0] = some (.bool c) := by
  obtain ⟨v, w, ha, hb, operation⟩ := value?_binary_eq_some.1 value
  unfold Canonical.comparedWithZero? at h
  split at h
  · next zero =>
    cases h
    cases lawful.value?_isZeroLiteral zero hb
    exact ⟨v, ha, operation⟩
  · split at h
    · next zero =>
      cases h
      cases lawful.value?_isZeroLiteral zero ha
      exact ⟨w, hb, (operate_swap w (.num 0) isEq).trans operation⟩
    · cases h

/-- The flag test of a masked value that is compared with zero. -/
theorem value?_comparedFlag (lawful : I.Lawful) {o : Operator} (isEq : o = .eq ∨ o = .ne)
    {a b test : Expr} (h : (Canonical.comparedWithZero? a b).bind Canonical.flagTest? = some test)
    {c : Bool} (value : I.value? (.op o [a, b]) = some (.bool c)) :
    ∃ x : K, I.value? test = some (.bool (x ≠ 0)) ∧ relate o x 0 = c := by
  obtain ⟨e, compared, flag⟩ := Option.bind_eq_some_iff.1 h
  obtain ⟨v, operand, operation⟩ := lawful.value?_comparedWithZero? isEq compared value
  obtain ⟨x, rfl, tested⟩ := lawful.value?_flagTest? flag operand
  refine ⟨x, tested, ?_⟩
  have rel : o.isRelational = true := by rcases isEq with rfl | rfl <;> rfl
  rw [operate_num rel] at operation
  exact Value.bool.inj (Option.some.inj operation)

theorem refines_expandFlag (lawful : I.Lawful) (e : Expr) :
    I.Refines e (Canonical.expandFlag e) := by
  unfold Canonical.expandFlag
  split
  · next a b =>
    cases flag : (Canonical.comparedWithZero? a b).bind Canonical.flagTest? with
    | none => exact .refl _
    | some test =>
      refine .of_isBoolean rfl fun c value => ?_
      obtain ⟨x, tested, rfl⟩ := lawful.value?_comparedFlag (.inl rfl) flag value
      exact value?_not_eq_some.2 ⟨_, tested, by simp [relate]⟩
  · next a b =>
    cases flag : (Canonical.comparedWithZero? a b).bind Canonical.flagTest? with
    | none => exact .refl _
    | some test =>
      refine .of_isBoolean rfl fun c value => ?_
      obtain ⟨x, tested, rfl⟩ := lawful.value?_comparedFlag (.inr rfl) flag value
      exact tested
  · exact .refl _

theorem refines_pass [IsStrictOrderedRing K] (lawful : I.Lawful) {p : Canonical.Pass}
    (h : p ∈ Canonical.passes) (e : Expr) : I.Refines e (p.rule e) := by
  simp only [Canonical.passes, List.mem_cons, List.not_mem_nil, or_false] at h
  rcases h with rfl | rfl | rfl | rfl | rfl | rfl | rfl | rfl | rfl
  · exact refines_expandIdiom e
  · exact refines_foldBoolEquality e
  · exact refines_dropDoubleNegation e
  · exact refines_shiftSubtraction e
  · exact refines_flatten e
  · exact refines_normalizeSum e
  · exact refines_sortCommutative e
  · exact refines_orderEquality e
  · exact lawful.refines_expandFlag e

theorem refines_round [IsStrictOrderedRing K] (lawful : I.Lawful) (e : Expr) :
    I.Refines e (Canonical.round e) := by
  have run : ∀ (ps : List Canonical.Pass) (e : Expr), (∀ p ∈ ps, p ∈ Canonical.passes) →
      I.Refines e (ps.foldl (fun e p => p.run e) e) := by
    intro ps
    induction ps with
    | nil => exact fun e _ => .refl e
    | cons p ps ih =>
      intro e known
      have first : I.Refines e (p.run e) :=
        refines_bottomUp (lawful.refines_pass (known p List.mem_cons_self)) e
      exact first.trans (ih _ fun q mem => known q (List.mem_cons_of_mem p mem))
  exact run _ e fun _ mem => mem

theorem refines_rounds [IsStrictOrderedRing K] (lawful : I.Lawful) (n : Nat) (e : Expr) :
    I.Refines e (Canonical.rounds n e) := by
  induction n generalizing e with
  | zero => exact .refl e
  | succ n ih =>
    rw [Canonical.rounds]
    split
    · exact .refl e
    · exact (lawful.refines_round e).trans (ih _)

/-- The canonical form means what the tree means. -/
theorem refines_canonical [IsStrictOrderedRing K] (lawful : I.Lawful) (e : Expr) :
    I.Refines e e.canonical := lawful.refines_rounds _ e

end Lawful

/-- A well-sorted tree and its canonical form have the same value, and it has the sort of the
tree. -/
theorem canonical_keeps_value [IsStrictOrderedRing K] {σ : Signature} (lawful : I.Lawful)
    (resp : I.Respects σ) {e : Expr} {s : ValueSort} (sorted : σ.sort? e = some s) :
    ∃ v, v.sort = s ∧ I.value? e = some v ∧ I.value? e.canonical = some v := by
  obtain ⟨v, value, sort⟩ := resp.value? sorted
  exact ⟨v, sort, value, (lawful.refines_canonical e).value value⟩

/-- Every name is one, a call tells whether its argument is not zero, and the free operators
multiply. -/
def ones : Interp Int where
  read
    | .call _ [.num x] => .bool (x ≠ 0)
    | _ => .num 1
  literal? digits := (Numeral.value? digits).map (·.num)
  arith _ x y := x * y

/-- Calls with a number are truth values, all other places numbers. -/
def callsOnNumbers : Path → ValueSort
  | .call _ [.integer] => .boolean
  | _ => .integer

theorem lawful_ones : ones.Lawful where
  zero := by
    intro digits x zero literal
    obtain ⟨q, value, rfl⟩ := Option.map_eq_some_iff.1 literal
    cases zero.symm.trans value
    rfl
  flag := by
    rintro mask predicate - m ⟨⟩ x
    simp [ones]

theorem respects_ones : ones.Respects ⟨callsOnNumbers, fun digits => (ones.literal? digits).isSome⟩
    where
  read p := by
    cases p with
    | call f args =>
      match args with
      | [] | [.num _] | [.bool _] | .num _ :: _ :: _ | .bool _ :: _ :: _ => rfl
    | _ => rfl
  literal _ := rfl

/-- The sender owns the contract, which is not false, and the flag of `v` is set. -/
def flaggedByOwner : Expr :=
  .op .and [.op .ne [.apply "isOwner" [], .bool false],
    .op .ne [.op .bitAnd [.ident "v", .ident "MarketplaceLib.FLAG_MASK_FINALIZED"], .num "0"],
    .op .le [.op .sub [.ident "a", .ident "b"], .num "1"]]

theorem canonical_keeps_value_flaggedByOwner :
    ones.value? flaggedByOwner.canonical = some (.bool true) := by
  obtain ⟨v, -, value, same⟩ := canonical_keeps_value lawful_ones respects_ones
    (e := flaggedByOwner) (s := .boolean) (by cbv)
  have holds : ones.value? flaggedByOwner = some (.bool true) := by cbv
  rw [same, ← value, holds]

end Interp
end PredicateStrength
