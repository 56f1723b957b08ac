import Mathlib
import PredicateStrength.Proofs.Expr.Traversal

/-!
# Rearranged trees

Two trees are joined by a kind of step if a chain of such steps, each carried out somewhere in the
tree and forwards or backwards, leads from one to the other. The steps here change the operands of
commutative operators. The first five passes carry such chains over to chains, and the sort puts
trees that differ in the order of such operands into one.

Main statements: a rule that respects a step in every part of a node respects it when carried
through trees (`Joined.bottomUp`), and trees joined by reordering sort to the same tree
(`Joined.sort_eq`).
-/
namespace PredicateStrength

namespace Expr

/-- A node with one part left out. -/
inductive Frame where
  | not
  | neg
  | operand (o : Operator) (before after : List Expr)
  | calleeOf (args : List Expr)
  | argument (callee : Expr) (before after : List Expr)
  | baseOf (key : Expr)
  | keyOf (base : Expr)
  | memberOf (field : String)

namespace Frame

/-- The node with the part put in. -/
def fill : Frame → Expr → Expr
  | .not, e => .not e
  | .neg, e => .neg e
  | .operand o before after, e => .op o (before ++ e :: after)
  | .calleeOf args, e => .call e args
  | .argument f before after, e => .call f (before ++ e :: after)
  | .baseOf key, e => .index e key
  | .keyOf base, e => .index base e
  | .memberOf field, e => .member e field

/-- A function applied to the other parts. -/
def map (g : Expr → Expr) : Frame → Frame
  | .not => .not
  | .neg => .neg
  | .operand o before after => .operand o (before.map g) (after.map g)
  | .calleeOf args => .calleeOf (args.map g)
  | .argument f before after => .argument (g f) (before.map g) (after.map g)
  | .baseOf key => .baseOf (g key)
  | .keyOf base => .keyOf (g base)
  | .memberOf field => .memberOf field

end Frame

theorem bottomUp_op (rule : Expr → Expr) (o : Operator) (args : List Expr) :
    bottomUp rule (.op o args) = rule (.op o (args.map (bottomUp rule))) := by
  rw [bottomUp, bottomUpAll_eq_map]

theorem bottomUp_fill (rule : Expr → Expr) (c : Frame) (e : Expr) :
    bottomUp rule (c.fill e) = rule ((c.map (bottomUp rule)).fill (bottomUp rule e)) := by
  cases c <;> simp [Frame.fill, Frame.map, bottomUp, bottomUpAll_eq_map]

/-- One step, carried out at one place in the tree. -/
inductive Somewhere (step : Expr → Expr → Prop) : Expr → Expr → Prop
  | here {e f : Expr} (h : step e f) : Somewhere step e f
  | inside (c : Frame) {e f : Expr} (h : Somewhere step e f) :
      Somewhere step (c.fill e) (c.fill f)

/-- Any number of steps, forwards and backwards. -/
def Joined (step : Expr → Expr → Prop) : Expr → Expr → Prop := Relation.EqvGen (Somewhere step)

namespace Joined

variable {step step' : Expr → Expr → Prop} {rule : Expr → Expr} {e f g : Expr}

theorem refl (e : Expr) : Joined step e e := Relation.EqvGen.refl e

theorem symm (h : Joined step e f) : Joined step f e := Relation.EqvGen.symm e f h

theorem trans (h : Joined step e f) (h' : Joined step f g) : Joined step e g :=
  Relation.EqvGen.trans e f g h h'

theorem single (h : Somewhere step e f) : Joined step e f := Relation.EqvGen.rel e f h

/-- What respects single steps respects chains. -/
theorem lift {γ : Expr → Expr} (hγ : ∀ e f, Somewhere step e f → Joined step' (γ e) (γ f))
    (h : Joined step e f) : Joined step' (γ e) (γ f) := by
  induction h with
  | rel e f h => exact hγ e f h
  | refl e => exact refl _
  | symm e f _ ih => exact ih.symm
  | trans e f g _ _ ih ih' => exact ih.trans ih'

/-- What a single step leaves equal is equal at the ends of a chain. -/
theorem eq_of_step {γ : Expr → Expr} (hγ : ∀ e f, Somewhere step e f → γ e = γ f)
    (h : Joined step e f) : γ e = γ f := by
  induction h with
  | rel e f h => exact hγ e f h
  | refl e => rfl
  | symm e f _ ih => exact ih.symm
  | trans e f g _ _ ih ih' => exact ih.trans ih'

theorem inside (c : Frame) (h : Joined step e f) : Joined step (c.fill e) (c.fill f) :=
  h.lift fun _ _ single => .single (.inside c single)

/-- A rule that respects a step in any one part of a node respects, carried through the tree, the
steps that it respects at the root. -/
theorem bottomUp (root : ∀ e f, step e f → Joined step' (bottomUp rule e) (bottomUp rule f))
    (part : ∀ (c : Frame) (e f : Expr), Somewhere step' e f →
      Joined step' (rule (c.fill e)) (rule (c.fill f)))
    (h : Joined step e f) : Joined step' (Expr.bottomUp rule e) (Expr.bottomUp rule f) := by
  refine h.lift fun e f single => ?_
  induction single with
  | here h => exact root _ _ h
  | inside c _ ih =>
    rw [bottomUp_fill, bottomUp_fill]
    have parts := lift (part (c.map (Expr.bottomUp rule))) ih
    exact parts

end Joined

/-- The steps change the operands of commutative operators only. -/
def OnCommutative (step : Expr → Expr → Prop) : Prop :=
  ∀ e f, step e f → ∃ o as bs, o.isCommutative = true ∧ e = .op o as ∧ f = .op o bs

/-- Another order of the operands, for some of the operators. -/
inductive Reorders (free : Operator → Bool) : Expr → Expr → Prop
  | reorder {o : Operator} {as bs : List Expr} (h : free o = true) (perm : as.Perm bs) :
      Reorders free (.op o as) (.op o bs)

/-- Another order of the operands wherever it does not matter. -/
abbrev Permutes : Expr → Expr → Prop := Reorders Operator.isCommutative

/-- The truth value that the tree is. -/
def truth? : Expr → Option Bool
  | .bool b => some b
  | _ => none

/-- A subtraction of one operand from another. -/
def isDifference : Expr → Bool
  | .op .sub [_, _] => true
  | _ => false

theorem isDifference_op {o : Operator} {args : List Expr} :
    (op o args).isDifference = true ↔ o = .sub ∧ args.length = 2 := by
  match args with
  | [] | [_] | [_, _] | _ :: _ :: _ :: _ => cases o <;> simp [isDifference]

theorem isDifference_mapParts (g : Expr → Expr) (e : Expr) :
    (e.mapParts g).isDifference = e.isDifference := by
  cases e with
  | op o args => rw [mapParts, Bool.eq_iff_iff, isDifference_op, isDifference_op, List.length_map]
  | _ => rfl

namespace Somewhere

variable {step : Expr → Expr → Prop} {e f : Expr}

theorem truth? (comm : OnCommutative step) (h : Somewhere step e f) :
    e.truth? = none ∧ f.truth? = none := by
  cases h with
  | here h =>
    obtain ⟨o, as, bs, -, rfl, rfl⟩ := comm e f h
    exact ⟨rfl, rfl⟩
  | inside c h => cases c <;> exact ⟨rfl, rfl⟩

theorem ne_ident (comm : OnCommutative step) (h : Somewhere step e f) (name : String) :
    e ≠ .ident name ∧ f ≠ .ident name := by
  cases h with
  | here h =>
    obtain ⟨o, as, bs, -, rfl, rfl⟩ := comm e f h
    exact ⟨nofun, nofun⟩
  | inside c h => cases c <;> exact ⟨nofun, nofun⟩

/-- A step does not take a negation off, and does not put one in front. -/
theorem not_cases (comm : OnCommutative step) (h : Somewhere step e f) :
    (∃ x y, e = .not x ∧ f = .not y ∧ Somewhere step x y) ∨
      ((∀ x, e ≠ .not x) ∧ ∀ x, f ≠ .not x) := by
  cases h with
  | here h =>
    obtain ⟨o, as, bs, -, rfl, rfl⟩ := comm e f h
    exact .inr ⟨nofun, nofun⟩
  | inside c h =>
    cases c with
    | not => exact .inl ⟨_, _, rfl, rfl, h⟩
    | _ => exact .inr ⟨nofun, nofun⟩

end Somewhere

/-- A step in a difference is a step in one of its operands. -/
theorem Somewhere.difference_cases {step : Expr → Expr → Prop} {e f : Expr}
    (comm : OnCommutative step) (h : Somewhere step e f) :
    (∃ a b a', e = .op .sub [a, b] ∧ f = .op .sub [a', b] ∧ Somewhere step a a') ∨
      (∃ a b b', e = .op .sub [a, b] ∧ f = .op .sub [a, b'] ∧ Somewhere step b b') ∨
      (e.isDifference = false ∧ f.isDifference = false) := by
  cases h with
  | here h =>
    obtain ⟨o, as, bs, commutes, rfl, rfl⟩ := comm e f h
    cases o <;> first | exact .inr (.inr ⟨rfl, rfl⟩) | cases commutes
  | inside c h =>
    cases c with
    | operand o before after =>
      cases o with
      | sub =>
        match before, after with
        | [], [b] => exact .inl ⟨_, b, _, rfl, rfl, h⟩
        | [a], [] => exact .inr (.inl ⟨a, _, _, rfl, rfl, h⟩)
        | [], [] | [], _ :: _ :: _ | [_], _ :: _ | [_, _], _ | _ :: _ :: _ :: _, _ =>
          exact .inr (.inr ⟨rfl, rfl⟩)
      | _ => exact .inr (.inr ⟨rfl, rfl⟩)
    | _ => exact .inr (.inr ⟨rfl, rfl⟩)

end Expr

namespace Canonical
open PredicateStrength.Expr

section Parts

variable {step : Expr → Expr → Prop} {e f : Expr} {o : Operator}

theorem expandIdiom_fill (unnamed : ∀ name, e ≠ .ident name) (c : Frame) :
    expandIdiom (c.fill e) = c.fill e := by
  cases c with
  | calleeOf args =>
    cases e with
    | ident name => exact absurd rfl (unnamed name)
    | _ => rfl
  | argument f before after =>
    cases f with
    | ident name => cases before <;> rfl
    | _ => rfl
  | _ => rfl

theorem joined_expandIdiom (comm : OnCommutative step) (c : Frame) (h : Somewhere step e f) :
    Joined step (expandIdiom (c.fill e)) (expandIdiom (c.fill f)) := by
  have unnamed := h.ne_ident comm
  rw [expandIdiom_fill fun name => (unnamed name).1, expandIdiom_fill fun name => (unnamed name).2]
  exact (Joined.single h).inside c

theorem dropDoubleNegation_not (positive : ∀ x, e ≠ .not x) :
    dropDoubleNegation (.not e) = .not e := by
  cases e with
  | not x => exact absurd rfl (positive x)
  | _ => rfl

theorem joined_dropDoubleNegation (comm : OnCommutative step) (c : Frame)
    (h : Somewhere step e f) :
    Joined step (dropDoubleNegation (c.fill e)) (dropDoubleNegation (c.fill f)) := by
  have whole : Joined step (c.fill e) (c.fill f) := (Joined.single h).inside c
  cases c with
  | not =>
    rcases h.not_cases comm with ⟨x, y, rfl, rfl, inner⟩ | ⟨positive, positive'⟩
    · exact .single inner
    · have left : dropDoubleNegation (Frame.not.fill e) = .not e := dropDoubleNegation_not positive
      have right : dropDoubleNegation (Frame.not.fill f) = .not f :=
        dropDoubleNegation_not positive'
      rw [left, right]
      exact whole
  | _ => exact whole

/-- A comparison of `e` with a truth value: `e` or its negation. -/
def comparedWith (o : Operator) (value : Bool) (e : Expr) : Expr :=
  if (o = .eq) = (value = true) then e else .not e

theorem foldBoolEquality_pair (isEq : o = .eq ∨ o = .ne) (a b : Expr) :
    foldBoolEquality (.op o [a, b]) =
      match a.truth?, b.truth? with
      | some value, _ => comparedWith o value b
      | none, some value => comparedWith o value a
      | none, none => .op o [a, b] := by
  have folded : ∀ value c, foldBoolEquality (.op o [.bool value, c]) = comparedWith o value c := by
    intro value c
    rcases isEq with rfl | rfl <;> cases value <;> simp [foldBoolEquality, comparedWith]
  cases a with
  | bool value => exact folded value b
  | _ =>
    cases b with
    | bool value =>
      rcases isEq with rfl | rfl <;> cases value <;>
        simp [foldBoolEquality, comparedWith, Expr.truth?]
    | _ => rcases isEq with rfl | rfl <;> rfl

theorem foldBoolEquality_of_ne {args : List Expr}
    (h : (o ≠ .eq ∧ o ≠ .ne) ∨ args.length ≠ 2) :
    foldBoolEquality (.op o args) = .op o args := by
  unfold foldBoolEquality
  split <;> simp_all

theorem joined_comparedWith (o : Operator) (value : Bool) (h : Joined step e f) :
    Joined step (comparedWith o value e) (comparedWith o value f) := by
  unfold comparedWith
  split
  · exact h
  · exact h.inside .not

theorem joined_foldBoolEquality (comm : OnCommutative step) (c : Frame) (h : Somewhere step e f) :
    Joined step (foldBoolEquality (c.fill e)) (foldBoolEquality (c.fill f)) := by
  have whole : Joined step (c.fill e) (c.fill f) := (Joined.single h).inside c
  have single := Joined.single h
  obtain ⟨left, right⟩ := h.truth? comm
  cases c with
  | operand o before after =>
    by_cases isEq : o = .eq ∨ o = .ne
    · match before, after with
      | [], [b] =>
        show Joined step (foldBoolEquality (.op o [e, b])) (foldBoolEquality (.op o [f, b]))
        rw [foldBoolEquality_pair isEq, foldBoolEquality_pair isEq, left, right]
        cases b.truth? with
        | none => exact whole
        | some value => exact joined_comparedWith o value single
      | [a], [] =>
        show Joined step (foldBoolEquality (.op o [a, e])) (foldBoolEquality (.op o [a, f]))
        rw [foldBoolEquality_pair isEq, foldBoolEquality_pair isEq, left, right]
        cases a.truth? with
        | none => exact whole
        | some value => exact joined_comparedWith o value single
      | [], [] | [], _ :: _ :: _ | [_], _ :: _ | _ :: _ :: _, _ =>
        simp only [Frame.fill]
        rw [foldBoolEquality_of_ne (.inr (by simp)), foldBoolEquality_of_ne (.inr (by simp))]
        exact whole
    · simp only [Frame.fill]
      rw [foldBoolEquality_of_ne (.inl (by tauto)), foldBoolEquality_of_ne (.inl (by tauto))]
      exact whole
  | _ => exact whole

theorem moveSubtrahends_of_not {side : Expr} (h : side.isDifference = false) (other : Expr) :
    moveSubtrahends side other = (side, other) := by
  unfold moveSubtrahends
  split
  · cases h
  · rfl

theorem isDifference_moveSubtrahends_fst (side other : Expr) :
    (moveSubtrahends side other).1.isDifference = false := by
  induction side, other using moveSubtrahends.induct with
  | case1 a b other ih => rwa [moveSubtrahends]
  | case2 side other plain =>
    rw [moveSubtrahends]
    · cases difference : side.isDifference with
      | false => rfl
      | true =>
        unfold isDifference at difference
        split at difference
        · exact absurd rfl (plain _ _)
        · cases difference
    · exact plain

theorem isDifference_moveSubtrahends_snd (side : Expr) {other : Expr}
    (h : other.isDifference = false) : (moveSubtrahends side other).2.isDifference = false := by
  induction side, other using moveSubtrahends.induct with
  | case1 a b other ih =>
    rw [moveSubtrahends]
    exact ih rfl
  | case2 side other plain =>
    rw [moveSubtrahends]
    · exact h
    · exact plain

theorem joined_moveSubtrahends_other {t t' : Expr} (h : Joined step t t') (s : Expr) :
    Joined step (moveSubtrahends s t).1 (moveSubtrahends s t').1 ∧
      Joined step (moveSubtrahends s t).2 (moveSubtrahends s t').2 := by
  induction s, t using moveSubtrahends.induct generalizing t' with
  | case1 a b t ih =>
    rw [moveSubtrahends, moveSubtrahends]
    exact ih (h.inside (.operand .add [] [b]))
  | case2 s t plain =>
    have fixed : ∀ t, moveSubtrahends s t = (s, t) := fun t => by
      rw [moveSubtrahends]
      exact plain
    rw [fixed, fixed]
    exact ⟨.refl s, h⟩

theorem joined_moveSubtrahends_side (comm : OnCommutative step) {s s' : Expr}
    (h : Somewhere step s s') (t : Expr) :
    Joined step (moveSubtrahends s t).1 (moveSubtrahends s' t).1 ∧
      Joined step (moveSubtrahends s t).2 (moveSubtrahends s' t).2 := by
  induction s, t using moveSubtrahends.induct generalizing s' with
  | case1 a b t ih =>
    rcases h.difference_cases comm with ⟨_, _, a', ⟨⟩, rfl, inner⟩ | ⟨_, _, b', ⟨⟩, rfl, inner⟩ |
      ⟨plain, -⟩
    · rw [moveSubtrahends, moveSubtrahends]
      exact ih inner
    · rw [moveSubtrahends, moveSubtrahends]
      exact joined_moveSubtrahends_other ((Joined.single inner).inside (.operand .add [t] [])) a
    · cases plain
  | case2 s t plain =>
    rcases h.difference_cases comm with ⟨a, b, -, rfl, -⟩ | ⟨a, b, -, rfl, -⟩ | ⟨left, right⟩
    · exact absurd rfl (plain a b)
    · exact absurd rfl (plain a b)
    · rw [moveSubtrahends_of_not left, moveSubtrahends_of_not right]
      exact ⟨.single h, .refl t⟩

theorem joined_moveSubtrahends (comm : OnCommutative step) {s s' t t' : Expr}
    (h : Joined step s s') (h' : Joined step t t') :
    Joined step (moveSubtrahends s t).1 (moveSubtrahends s' t').1 ∧
      Joined step (moveSubtrahends s t).2 (moveSubtrahends s' t').2 := by
  have first : Joined step (moveSubtrahends s t).1 (moveSubtrahends s' t).1 :=
    h.lift fun _ _ single => (joined_moveSubtrahends_side comm single t).1
  have second : Joined step (moveSubtrahends s t).2 (moveSubtrahends s' t).2 :=
    h.lift fun _ _ single => (joined_moveSubtrahends_side comm single t).2
  obtain ⟨first', second'⟩ := joined_moveSubtrahends_other h' s'
  exact ⟨first.trans first', second.trans second'⟩

theorem shiftSubtraction_pair (rel : o.isRelational = true) (lhs rhs : Expr) :
    shiftSubtraction (.op o [lhs, rhs]) =
      .op o [(moveSubtrahends (moveSubtrahends rhs lhs).2 (moveSubtrahends rhs lhs).1).1,
        (moveSubtrahends (moveSubtrahends rhs lhs).2 (moveSubtrahends rhs lhs).1).2] := by
  simp only [shiftSubtraction, rel, if_true]

theorem shiftSubtraction_of_ne {args : List Expr}
    (h : o.isRelational = false ∨ args.length ≠ 2) : shiftSubtraction (.op o args) = .op o args := by
  unfold shiftSubtraction
  split <;> simp_all

theorem joined_shiftSubtraction_pair (comm : OnCommutative step) (rel : o.isRelational = true)
    {a a' b b' : Expr} (left : Joined step a a') (right : Joined step b b') :
    Joined step (shiftSubtraction (.op o [a, b])) (shiftSubtraction (.op o [a', b'])) := by
  rw [shiftSubtraction_pair rel, shiftSubtraction_pair rel]
  obtain ⟨rhs, lhs⟩ := joined_moveSubtrahends comm right left
  obtain ⟨lhs, rhs⟩ := joined_moveSubtrahends comm lhs rhs
  exact (lhs.inside (.operand o [] [_])).trans (rhs.inside (.operand o [_] []))

theorem joined_shiftSubtraction (comm : OnCommutative step) (c : Frame) (h : Somewhere step e f) :
    Joined step (shiftSubtraction (c.fill e)) (shiftSubtraction (c.fill f)) := by
  have whole : Joined step (c.fill e) (c.fill f) := (Joined.single h).inside c
  cases c with
  | operand o before after =>
    cases rel : o.isRelational with
    | true =>
      match before, after with
      | [], [b] => exact joined_shiftSubtraction_pair comm rel (.single h) (.refl b)
      | [a], [] => exact joined_shiftSubtraction_pair comm rel (.refl a) (.single h)
      | [], [] | [], _ :: _ :: _ | [_], _ :: _ | _ :: _ :: _, _ =>
        simp only [Frame.fill]
        rw [shiftSubtraction_of_ne (.inr (by simp)), shiftSubtraction_of_ne (.inr (by simp))]
        exact whole
    | false =>
      simp only [Frame.fill]
      rw [shiftSubtraction_of_ne (.inl rel), shiftSubtraction_of_ne (.inl rel)]
      exact whole
  | _ => exact whole

end Parts

section Order

variable {e f : Expr} {o : Operator} {args : List Expr}

theorem splice_append_cons (o : Operator) (before after : List Expr) (e : Expr) :
    splice o (before ++ e :: after) = splice o before ++ operands o e ++ splice o after := by
  simp [splice, List.flatMap_append]

theorem splice_perm (o : Operator) {as bs : List Expr} (h : as.Perm bs) :
    (splice o as).Perm (splice o bs) := h.flatMap_right _

/-- A step in an operand is a step among the operands that are spliced in for it. -/
theorem joined_operands (h : Somewhere Permutes e f) (o : Operator) (before after : List Expr) :
    Joined Permutes (.op o (before ++ operands o e ++ after))
      (.op o (before ++ operands o f ++ after)) := by
  have kept : ∀ {e f}, Somewhere Permutes e f → operands o e = [e] → operands o f = [f] →
      Joined Permutes (.op o (before ++ operands o e ++ after))
        (.op o (before ++ operands o f ++ after)) := by
    intro e f single left right
    rw [left, right, List.append_assoc, List.append_assoc]
    exact (Joined.single single).inside (.operand o before after)
  have other : ∀ {p args}, p ≠ o → operands o (.op p args) = [.op p args] := by
    intro p args ne
    rw [operands, if_neg ne]
  cases h with
  | @here e f h =>
    obtain @⟨p, as, bs, comm, perm⟩ := h
    by_cases same : p = o
    · subst same
      rw [operands, operands, if_pos rfl, if_pos rfl]
      have joined : (before ++ as ++ after).Perm (before ++ bs ++ after) :=
        (perm.append_left before).append_right after
      exact .single (.here (.reorder comm joined))
    · exact kept (.here (.reorder comm perm)) (other same) (other same)
  | inside c h =>
    cases c with
    | operand p before' after' =>
      by_cases same : p = o
      · subst same
        simp only [Frame.fill, operands]
        have inner := (Joined.single h).inside
          (.operand p (before ++ before') (after' ++ after))
        simpa [Frame.fill] using inner
      · exact kept (.inside _ h) (other same) (other same)
    | _ => exact kept (.inside _ h) rfl rfl

theorem joined_flatten (c : Frame) (h : Somewhere Permutes e f) :
    Joined Permutes (flatten (c.fill e)) (flatten (c.fill f)) := by
  have whole : Joined Permutes (c.fill e) (c.fill f) := (Joined.single h).inside c
  cases c with
  | operand o before after =>
    simp only [Frame.fill, flatten]
    split
    · rw [splice_append_cons, splice_append_cons]
      exact joined_operands h o _ _
    · exact whole
  | _ => exact whole

theorem bottomUp_flatten_permutes (e f : Expr) (h : Permutes e f) :
    Joined Permutes (bottomUp flatten e) (bottomUp flatten f) := by
  obtain @⟨o, as, bs, comm, perm⟩ := h
  have mapped := perm.map (bottomUp flatten)
  rw [bottomUp_op, bottomUp_op, flatten, flatten]
  split
  · exact .single (.here (.reorder comm (splice_perm o mapped)))
  · exact .single (.here (.reorder comm mapped))

theorem joined_sorted (comm : o.isCommutative = true) (args : List Expr) :
    Joined Permutes (.op o (sorted args)) (.op o args) :=
  .single (.here (.reorder comm (Sorting.sort_perm cmp args)))

theorem joined_normalizeSum (c : Frame) (h : Somewhere Permutes e f) :
    Joined Permutes (normalizeSum (c.fill e)) (normalizeSum (c.fill f)) := by
  have whole : Joined Permutes (c.fill e) (c.fill f) := (Joined.single h).inside c
  cases c with
  | operand o before after =>
    cases o with
    | add =>
      have flat := joined_flatten (.operand .add before after) h
      exact (joined_sorted rfl _).trans (flat.trans (joined_sorted rfl _).symm)
    | _ => exact whole
  | _ => exact whole

theorem bottomUp_normalizeSum_permutes (e f : Expr) (h : Permutes e f) :
    Joined Permutes (bottomUp normalizeSum e) (bottomUp normalizeSum f) := by
  obtain @⟨o, as, bs, comm, perm⟩ := h
  rw [bottomUp_op, bottomUp_op]
  have mapped := perm.map (bottomUp normalizeSum)
  cases o with
  | add =>
    have spliced := splice_perm .add mapped
    exact (joined_sorted rfl _).trans
      ((Joined.single (.here (.reorder rfl spliced))).trans (joined_sorted rfl _).symm)
  | _ => exact .single (.here (.reorder comm mapped))

/-- Sorting forgets the order of the operands. -/
theorem Joined.sort_eq (h : Joined Permutes e f) :
    bottomUp sortCommutative e = bottomUp sortCommutative f := by
  refine h.eq_of_step fun e f single => ?_
  induction single with
  | here h =>
    obtain @⟨o, as, bs, comm, perm⟩ := h
    rw [bottomUp_op, bottomUp_op, sortCommutative, sortCommutative, if_pos comm, if_pos comm]
    exact congrArg (Expr.op o) (Sorting.sort_eq_of_perm cmp (perm.map _))
  | inside c _ ih => rw [bottomUp_fill, bottomUp_fill, ih]

/-- Trees that differ in the order of operands when they are flattened have the same canonical
form. -/
theorem canonical_eq_of_flattened
    (h : Joined Permutes
      (bottomUp flatten (bottomUp shiftSubtraction (bottomUp dropDoubleNegation
        (bottomUp foldBoolEquality (bottomUp expandIdiom e)))))
      (bottomUp flatten (bottomUp shiftSubtraction (bottomUp dropDoubleNegation
        (bottomUp foldBoolEquality (bottomUp expandIdiom f)))))) :
    e.canonical = f.canonical := by
  apply canonical_eq_of_round_eq
  rw [round_eq, round_eq,
    Joined.sort_eq (h.bottomUp bottomUp_normalizeSum_permutes fun c _ _ => joined_normalizeSum c)]

end Order

end Canonical
end PredicateStrength
